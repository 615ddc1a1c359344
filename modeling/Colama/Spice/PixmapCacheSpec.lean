import Mathlib.Tactic
import Colama.Lib.Runs
import Colama.Spice.PixmapCache

namespace Colama.Spice

open Lib

theorem toInt64_eq {n : Int} (h : -(2 ^ 63) ≤ n) (h' : n < 2 ^ 63) : toInt64 n = n := by
  rw [toInt64, Int.bmod_def]
  norm_num at *
  split <;> omega

theorem toInt32_sub (n m : Int) : toInt32 (toInt32 n - m) = toInt32 (n - m) := Int.bmod_sub_bmod

theorem toInt32_add (n m : Int) : toInt32 (toInt32 n + m) = toInt32 (n + m) := Int.bmod_add_bmod

namespace PixmapCache

/-- The sizes of some items in all. -/
def sizes (c : PixmapCache) (l : List Nat) : Int := c.table.total NewCacheItem.size l

/-- The ring and the chains hold the items of the list, the last used first. -/
structure Wellformed (c : PixmapCache) (l : List Nat) : Prop where
  holds : c.table.Holds bitsCache l
  size_pos : ∀ p ∈ l, 0 < (c.table.item p).size ∧ (c.table.item p).size < 2 ^ 32
  items_eq : c.items = toInt32 l.length

structure Accounted (c : PixmapCache) (l : List Nat) : Prop where
  wellformed : c.Wellformed l
  available_eq : c.available + c.sizes l = c.size
  available_le : min 0 c.size ≤ c.available

variable {c c' : PixmapCache} {ch ch' : DisplayChannel} {l l' : List Nat} {p : Nat}

theorem sizes_nonneg (c : PixmapCache) (l : List Nat) : 0 ≤ c.sizes l := c.table.total_nonneg _ l

theorem Wellformed.unlink (h : c.Wellformed (l ++ [p])) (ch : DisplayChannel) :
    (c.unlink ch p).Wellformed l where
  holds := h.holds.unlink
  size_pos q hq := h.size_pos q (List.mem_append_left _ hq)
  items_eq := by
    change toInt32 (c.items - 1) = _
    rw [h.items_eq, toInt32_sub, List.length_append, List.length_singleton, Nat.cast_add, Nat.cast_one,
      add_sub_cancel_right]

/-- What a run of evictions leaves alone. -/
structure Kept (c c' : PixmapCache) : Prop where
  item_eq : c'.table.item = c.table.item
  next_eq : c'.table.next = c.table.next
  size_eq : c'.size = c.size
  freezed_eq : c'.freezed = c.freezed

theorem Kept.sizes_eq (h : Kept c c') (l : List Nat) : c'.sizes l = c.sizes l :=
  LruTable.total_congr fun p _ => by rw [h.item_eq]

/-- Items were evicted from the tail of the ring, none of them used by the message of the channel. -/
structure Evicted (c : PixmapCache) (ch : DisplayChannel) (l : List Nat) (c' : PixmapCache)
    (ch' : DisplayChannel) (l' gone : List Nat) : Prop where
  kept : Kept c c'
  list_eq : l = l' ++ gone
  freed_eq : c'.freed = gone ++ c.freed
  unused : ∀ p ∈ gone, (c.table.item p).sync ch.id ≠ ch.serial
  wellformed : c'.Wellformed l'
  available_eq : c'.available + c.sizes l' = c.available + c.sizes l
  le_available : c.available ≤ c'.available
  channel_eq : ch'.id = ch.id ∧ ch'.serial = ch.serial

theorem Evicted.refl (h : c.Wellformed l) (ch : DisplayChannel) : Evicted c ch l c ch l [] where
  kept := ⟨rfl, rfl, rfl, rfl⟩
  list_eq := (List.append_nil l).symm
  freed_eq := rfl
  unused := nofun
  wellformed := h
  available_eq := rfl
  le_available := le_rfl
  channel_eq := ⟨rfl, rfl⟩

theorem sizes_concat (c : PixmapCache) (l : List Nat) (p : Nat) :
    c.sizes (l ++ [p]) = c.sizes l + (c.table.item p).size := c.table.total_concat _ l p

theorem available_unlink (hlow : -(2 ^ 63) ≤ c.available) (hhigh : c.available + c.sizes (l ++ [p]) < 2 ^ 63)
    (ch : DisplayChannel) : (c.unlink ch p).available = c.available + (c.table.item p).size := by
  have hsizes := sizes_concat c l p
  have hnonneg := sizes_nonneg c l
  exact toInt64_eq (by omega) (by omega)

theorem Evicted.cons {gone : List Nat} (hp : (c.table.item p).sync ch.id ≠ ch.serial)
    (hlow : -(2 ^ 63) ≤ c.available) (hhigh : c.available + c.sizes (l ++ [p]) < 2 ^ 63)
    (h : Evicted (c.unlink ch p) (displayChannelPushRelease ch (c.table.item p).id (c.table.item p).sync) l
      c' ch' l' gone) : Evicted c ch (l ++ [p]) c' ch' l' (gone ++ [p]) := by
  have hsizes := sizes_concat c l p
  have havail := available_unlink hlow hhigh ch
  have hl : (c.unlink ch p).sizes = c.sizes := rfl
  have heq := h.available_eq
  have hle := h.le_available
  rw [hl, havail] at heq
  rw [havail] at hle
  exact {
    kept := ⟨h.kept.item_eq, h.kept.next_eq, h.kept.size_eq, h.kept.freezed_eq⟩
    list_eq := by rw [h.list_eq, List.append_assoc]
    freed_eq := by
      rw [h.freed_eq, List.append_assoc]
      rfl
    unused := fun q hq => by
      obtain hq | hq := List.mem_append.mp hq
      · exact h.unused q hq
      · rwa [List.mem_singleton.mp hq]
    wellformed := h.wellformed
    available_eq := by omega
    le_available := by omega
    channel_eq := h.channel_eq }

/-- The loop ends, with room or where nothing may be evicted. -/
theorem evictLoop_eq {n : Nat} (ch : DisplayChannel) (h : c.Wellformed l) (hn : l.length < n)
    (hlow : -(2 ^ 63) ≤ c.available) (hhigh : c.available + c.sizes l < 2 ^ 63) :
    ∃ c' ch' l' gone ok, evictLoop n c ch = some (c', ch', ok) ∧ Evicted c ch l c' ch' l' gone ∧
      (ok = true → 0 ≤ c'.available) := by
  induction n generalizing c ch l with
  | zero => omega
  | succ n ih =>
    rw [evictLoop]
    by_cases hroom : 0 ≤ c.available
    · exact ⟨c, ch, l, [], true, if_pos hroom, .refl h ch, fun _ => hroom⟩
    · rw [if_neg hroom]
      obtain rfl | ⟨l, p, rfl⟩ := l.eq_nil_or_concat
      · rw [h.holds.getTail_nil]
        exact ⟨c, ch, [], [], false, rfl, .refl h ch, (by rintro ⟨⟩)⟩
      · rw [List.concat_eq_append] at h hn hhigh ⊢
        rw [h.holds.getTail_concat]
        change ∃ c' ch' l' gone ok, (if (c.table.item p).sync ch.id = ch.serial then _ else _) = _ ∧ _
        by_cases hused : (c.table.item p).sync ch.id = ch.serial
        · exact ⟨c, ch, l ++ [p], [], false, if_pos hused, .refl h ch, (by rintro ⟨⟩)⟩
        · have hmem := h.holds.mem_own_chain (List.mem_append_right l List.mem_cons_self)
          have hev : c.evict ch p = some (c.unlink ch p,
              displayChannelPushRelease ch (c.table.item p).id (c.table.item p).sync) := if_pos hmem
          rw [if_neg hused, hev]
          rw [List.length_append, List.length_singleton] at hn
          have hsizes := sizes_concat c l p
          have havail := available_unlink hlow hhigh ch
          have hl : (c.unlink ch p).sizes = c.sizes := rfl
          obtain ⟨c', ch', l', gone, ok, e, hevicted, hok⟩ :=
            ih (displayChannelPushRelease ch (c.table.item p).id (c.table.item p).sync) (h.unlink ch)
              (by omega) (by omega) (by rw [havail, hl]; omega)
          exact ⟨c', ch', l', gone ++ [p], ok, e, hevicted.cons hused hlow hhigh, hok⟩

/-- A new item at the head of the ring. -/
theorem Wellformed.link (h : c.Wellformed l) (hp : p ∉ l) (hlt : p < c.table.next) {id size : Nat}
    (hsize : 0 < size ∧ size < 2 ^ 32) (lossy : Int) (ch : DisplayChannel) :
    (c.link p id size lossy ch).Wellformed (p :: l) where
  holds := h.holds.link hp hlt _
  size_pos q hq := by
    have hitem : (c.link p id size lossy ch).table.item q =
      (c.table.link bitsCache p (newItem id size lossy ch)).item q := rfl
    rw [hitem]
    obtain rfl | hq := List.mem_cons.mp hq
    · rw [LruTable.link_item_self]
      exact hsize
    · have hne : q ≠ p := fun he => hp (he ▸ hq)
      rw [LruTable.link_item_of_ne hne]
      exact h.size_pos q hq
  items_eq := by
    change toInt32 (c.items + 1) = _
    rw [h.items_eq, toInt32_add, List.length_cons, Nat.cast_add, Nat.cast_one]

theorem sizes_link (hp : p ∉ l) {id size : Nat} (lossy : Int) (ch : DisplayChannel) :
    (c.link p id size lossy ch).sizes (p :: l) = size + c.sizes l := LruTable.total_link hp _

/-- The size of a cache leaves room to subtract that of an item. -/
def SizeFits (size : Int) : Prop := -(2 ^ 63) + 2 ^ 32 ≤ size ∧ size < 2 ^ 63

/-- The items were put into the list of what the message releases, in this order. -/
structure Released (c : PixmapCache) (ch : DisplayChannel) (gone : List Nat) (ch' : DisplayChannel) : Prop where
  res_eq : ch'.freeListRes = ch.freeListRes ++ gone.map fun p => (c.table.item p).id
  le_sync : ∀ i, ch.freeListSync i ≤ ch'.freeListSync i
  item_le : ∀ p ∈ gone, ∀ i, (c.table.item p).sync i ≤ ch'.freeListSync i
  sync_eq : ∀ i, ch'.freeListSync i = ch.freeListSync i ∨
    ∃ p ∈ gone, ch'.freeListSync i = (c.table.item p).sync i
  channel_eq : ch'.id = ch.id ∧ ch'.serial = ch.serial

theorem Released.refl (c : PixmapCache) (h : ch'.freeListRes = ch.freeListRes)
    (hsync : ch'.freeListSync = ch.freeListSync) (hch : ch'.id = ch.id ∧ ch'.serial = ch.serial) :
    Released c ch [] ch' where
  res_eq := h.trans (List.append_nil _).symm
  le_sync _ := hsync ▸ le_rfl
  item_le := nofun
  sync_eq i := .inl (congrFun hsync i)
  channel_eq := hch

theorem Released.cons {gone : List Nat} (h : Released (c.unlink ch p)
      (displayChannelPushRelease ch (c.table.item p).id (c.table.item p).sync) gone ch') :
    Released c ch (p :: gone) ch' where
  res_eq := by
    rw [h.res_eq, List.map_cons]
    exact List.append_assoc ch.freeListRes [_] _
  le_sync i := (le_max_left _ _).trans (h.le_sync i)
  item_le q hq i := by
    obtain rfl | hq := List.mem_cons.mp hq
    · exact (le_max_right _ _).trans (h.le_sync i)
    · exact h.item_le q hq i
  sync_eq i := by
    obtain hi | ⟨q, hq, hi⟩ := h.sync_eq i
    · change _ = max _ _ at hi
      obtain hmax | hmax := max_choice (ch.freeListSync i) ((c.table.item p).sync i)
      · exact .inl (hi.trans hmax)
      · exact .inr ⟨p, List.mem_cons_self, hi.trans hmax⟩
    · exact .inr ⟨q, List.mem_cons_of_mem p hq, hi⟩
  channel_eq := h.channel_eq

theorem evictLoop_released {n : Nat} {ok : Bool} (h : evictLoop n c ch = some (c', ch', ok)) :
    ∃ gone, c'.freed = gone.reverse ++ c.freed ∧ Released c ch gone ch' := by
  induction n generalizing c ch with
  | zero => exact absurd h nofun
  | succ n ih =>
    rw [evictLoop] at h
    split at h
    · cases h
      exact ⟨[], rfl, .refl _ rfl rfl ⟨rfl, rfl⟩⟩
    · split at h
      · next tail _ =>
        dsimp only at h
        split at h
        · cases h
          exact ⟨[], rfl, .refl _ rfl rfl ⟨rfl, rfl⟩⟩
        · obtain ⟨⟨c₁, ch₁⟩, he, h⟩ := Option.bind_eq_some_iff.mp h
          rw [evict] at he
          split at he
          · cases he
            obtain ⟨gone, hfreed, hreleased⟩ := ih h
            refine ⟨tail :: gone, ?_, hreleased.cons⟩
            rw [hfreed, List.reverse_cons, List.append_assoc]
            rfl
          · exact absurd he nofun
      · cases h
        exact ⟨[], rfl, .refl _ rfl rfl ⟨rfl, rfl⟩⟩

theorem newItem_congr (id size : Nat) (lossy : Int) (h : ch'.id = ch.id ∧ ch'.serial = ch.serial) :
    newItem id size lossy ch' = newItem id size lossy ch := by
  rw [newItem, newItem, h.1, h.2]

theorem requestSync_released (c : PixmapCache) (ch : DisplayChannel) : Released c ch [] (requestSync ch) := by
  rw [requestSync]
  split <;> exact .refl c rfl rfl ⟨rfl, rfl⟩

/-- What `pixmap_cache_add` leads to: the items `gone` are evicted in this order, and where it succeeds the new
item is at the head of the ring. -/
structure Added (c : PixmapCache) (ch : DisplayChannel) (new : NewCacheItem) (l : List Nat) (c' : PixmapCache)
    (ch' : DisplayChannel) (ok : Bool) (l' gone : List Nat) : Prop where
  accounted : c'.Accounted (cond ok (c.table.next :: l') l')
  list_eq : l = l' ++ gone.reverse
  unused : ∀ p ∈ gone, (c.table.item p).sync ch.id ≠ ch.serial
  released : Released c ch gone ch'
  freed_eq : c'.freed = cond ok [] [c.table.next] ++ gone.reverse ++ c.freed
  item_eq : ∀ p ≠ c.table.next, c'.table.item p = c.table.item p
  new_eq : ok = true → c'.table.item c.table.next = new
  next_eq : c'.table.next = c.table.next + 1
  size_eq : c'.size = c.size
  freezed_eq : c'.freezed = c.freezed

theorem Accounted.add_eq (h : c.Accounted l) (hfits : SizeFits c.size) (id : Nat) {size : Nat}
    (hsize : 0 < size ∧ size < 2 ^ 32) (lossy : Int) (ch : DisplayChannel) :
    ∃ c' ch' ok l' gone, c.add id size lossy ch = some (c', ch', ok) ∧
      Added c ch (newItem id size lossy ch) l c' ch' ok l' gone := by
  obtain ⟨hlow, hhigh⟩ := hfits
  have havail := h.available_eq
  have hnonneg := sizes_nonneg c l
  have hle := h.available_le
  rw [PixmapCache.add, if_neg (by omega)]
  by_cases hgen : c.generation = ch.pixmapCacheGeneration
  · -- the new item is made at the address `c.table.next`
    set c₁ : PixmapCache := { c with
      table := c.table.alloc, available := toInt64 (c.available - size) } with hc₁
    have hroom : c₁.available = c.available - size := by
      refine toInt64_eq ?_ ?_ <;> omega
    have hw₁ : c₁.Wellformed l := ⟨h.wellformed.holds.alloc, h.wellformed.size_pos, h.wellformed.items_eq⟩
    have hsizes : c₁.sizes l = c.sizes l := rfl
    have hlen := h.wellformed.holds.length_le
    obtain ⟨c₂, ch₂, l', gone', ok, e, hev, hok⟩ :=
      evictLoop_eq ch hw₁ (show l.length < c.table.next + 1 + 1 by omega) (by omega)
        (by rw [hroom, hsizes]; omega)
    obtain ⟨gone, hfreed, hreleased⟩ := evictLoop_released e
    obtain rfl : gone' = gone.reverse := List.append_cancel_right (hev.freed_eq.symm.trans hfreed)
    have hnext : c₂.table.next = c.table.next + 1 := hev.kept.next_eq
    have hfresh : c.table.next ∉ l' := fun hp =>
      h.wellformed.holds.next_notMem (by rw [hev.list_eq]; exact List.mem_append_left _ hp)
    have hsum : c₂.available + c₂.sizes l' = c.available - size + c.sizes l := by
      rw [hev.kept.sizes_eq, hev.available_eq, hroom, hsizes]
    have hle₂ : c.available - size ≤ c₂.available := by
      rw [← hroom]
      exact hev.le_available
    have hnonneg₂ := sizes_nonneg c₂ l'
    have hunused : ∀ p ∈ gone, (c.table.item p).sync ch.id ≠ ch.serial := fun p hp =>
      hev.unused p (List.mem_reverse.mpr hp)
    have hreleased : Released c ch gone ch₂ :=
      ⟨hreleased.res_eq, hreleased.le_sync, hreleased.item_le, hreleased.sync_eq, hreleased.channel_eq⟩
    rw [if_neg (not_not.mpr hgen)]
    erw [e]
    cases ok with
    | true =>
      have hok := hok rfl
      refine ⟨_, ch₂, true, l', gone, rfl, ⟨⟨?_, ?_, ?_⟩, hev.list_eq, hunused, hreleased, hfreed, ?_, ?_, hnext,
        hev.kept.size_eq, hev.kept.freezed_eq⟩⟩
      · exact hev.wellformed.link hfresh (by omega) hsize lossy ch₂
      · rw [cond_true, sizes_link hfresh]
        change c₂.available + _ = c₂.size
        rw [hev.kept.size_eq]
        change _ = c.size
        omega
      · change min 0 c₂.size ≤ c₂.available
        exact (min_le_left _ _).trans hok
      · intro p hp
        exact (LruTable.link_item_of_ne hp).trans (congrFun hev.kept.item_eq p)
      · exact fun _ => (LruTable.link_item_self _ _ _).trans (newItem_congr id size lossy hreleased.channel_eq)
    | false =>
      have hback : toInt64 (c₂.available + size) = c₂.available + size := by
        refine toInt64_eq ?_ ?_ <;> omega
      refine ⟨_, ch₂, false, l', gone, rfl,
        ⟨⟨⟨hev.wellformed.holds, hev.wellformed.size_pos, hev.wellformed.items_eq⟩, ?_, ?_⟩, hev.list_eq, hunused,
          hreleased, ?_, fun p _ => congrFun hev.kept.item_eq p, (by rintro ⟨⟩), hnext, hev.kept.size_eq,
          hev.kept.freezed_eq⟩⟩
      · change toInt64 (c₂.available + size) + c₂.sizes l' = c₂.size
        rw [hback, hev.kept.size_eq]
        change _ = c.size
        omega
      · change min 0 c₂.size ≤ toInt64 (c₂.available + size)
        rw [hback, hev.kept.size_eq]
        change min 0 c.size ≤ _
        omega
      · exact congrArg (List.cons c.table.next) hfreed
  · rw [if_pos hgen]
    exact ⟨_, _, false, l, [], rfl,
      ⟨⟨⟨h.wellformed.holds.alloc, h.wellformed.size_pos, h.wellformed.items_eq⟩, havail, hle⟩,
        (List.append_nil l).symm, (by rintro _ ⟨⟩), requestSync_released c ch, rfl, fun _ _ => rfl, (by rintro ⟨⟩), rfl, rfl, rfl⟩⟩

/-- What `pixmap_cache_add` leads to. -/
theorem Accounted.add (h : c.Accounted l) (hfits : SizeFits c.size) {id size : Nat}
    (hsize : 0 < size ∧ size < 2 ^ 32) (lossy : Int) (ch : DisplayChannel) :
    ∃ c' ch' ok l', c.add id size lossy ch = some (c', ch', ok) ∧ c'.Accounted l' ∧ c'.size = c.size ∧
      c'.freezed = c.freezed ∧
      ∀ p < c.table.next, p ∈ c'.freed → p ∉ c.freed → (c.table.item p).sync ch.id ≠ ch.serial := by
  obtain ⟨c', ch', ok, l', gone, e, hadded⟩ := h.add_eq hfits id hsize lossy ch
  refine ⟨c', ch', ok, _, e, hadded.accounted, hadded.size_eq, hadded.freezed_eq, fun p hp hmem hnot => ?_⟩
  rw [hadded.freed_eq] at hmem
  obtain hmem | hmem := List.mem_append.mp ((List.mem_append.mp hmem).resolve_right hnot)
  · cases ok with
    | true => exact absurd hmem List.not_mem_nil
    | false => exact absurd (List.mem_singleton.mp hmem) (Nat.ne_of_lt hp)
  · exact hadded.unused p (List.mem_reverse.mp hmem)

/-- An item is changed, but for its identity and size, and moved in the ring. -/
theorem Accounted.modify (h : c.Accounted l) {t : LruTable NewCacheItem} (hperm : l'.Perm l)
    (holds : t.Holds bitsCache l') (hitem : t.item = c.table.item) (p : Nat) (a : NewCacheItem)
    (hid : a.id = (c.table.item p).id) (hsize : a.size = (c.table.item p).size)
    (sync : Fin maxCacheClients → Nat) :
    { c with table := t.modify p a, sync := sync }.Accounted l' := by
  have hsizes (q : Nat) : ((t.modify p a).item q).size = (c.table.item q).size := by
    change (Function.update t.item p a q).size = _
    rw [hitem]
    by_cases hq : q = p
    · subst hq
      rwa [Function.update_self]
    · rw [Function.update_of_ne hq]
  refine ⟨⟨holds.modify ?_, fun q hq => ?_, ?_⟩, ?_, h.available_le⟩
  · rw [hitem]
    exact hid
  · rw [hsizes q]
    exact h.wellformed.size_pos q (hperm.mem_iff.mp hq)
  · rw [hperm.length_eq]
    exact h.wellformed.items_eq
  · rw [sizes, LruTable.total_congr fun q _ => hsizes q, LruTable.total_perm hperm]
    exact h.available_eq

theorem Accounted.hit (h : c.Accounted l) (id : Nat) (ch : DisplayChannel) :
    ∃ l', (c.hit id ch).2.Accounted l' ∧ (c.hit id ch).2.size = c.size ∧
      (c.hit id ch).2.freezed = c.freezed := by
  rw [PixmapCache.hit]
  split
  · exact ⟨l, h, rfl, rfl⟩
  · next p hp =>
    obtain ⟨l', hperm, hl'⟩ := h.wellformed.holds.touch (h.wellformed.holds.find_mem hp).1
    exact ⟨l', h.modify hperm hl' rfl p { c.table.item p with
      sync := Function.update (c.table.item p).sync ch.id ch.serial } rfl rfl _, rfl, rfl⟩

theorem Accounted.setLossy (h : c.Accounted l) (id : Nat) (lossy : Int) :
    (c.setLossy id lossy).2.Accounted l ∧ (c.setLossy id lossy).2.size = c.size ∧
      (c.setLossy id lossy).2.freezed = c.freezed := by
  rw [PixmapCache.setLossy]
  split
  · exact ⟨h, rfl, rfl⟩
  · next p hp =>
    exact ⟨h.modify (.refl l) h.wellformed.holds rfl p { c.table.item p with lossy := lossy } rfl rfl c.sync,
      rfl, rfl⟩

/-- A frozen cache: the items of the list are kept by the ends of their ring. -/
structure Frozen (c : PixmapCache) (l : List Nat) : Prop where
  freezed_eq : c.freezed = true
  ring : IsRing c.table.links none []
  chains_eq : ∀ k, c.table.hashTable k = []
  available_eq : c.available = -1
  attached : IsRing (c.table.links.attach none c.freezedHead c.freezedTail) none (l.map some)
  lt_next : ∀ p ∈ l, p < c.table.next

theorem Accounted.freeze (h : c.Accounted l) (hc : c.freezed = false) : (c.freeze).2.Frozen l := by
  rw [PixmapCache.freeze, hc]
  refine ⟨rfl, isRing_init _ _, fun _ => rfl, rfl, ?_, h.wellformed.holds.lt_next⟩
  have hne : ∀ y ∈ l.map some, y ≠ none := fun y hy => by
    obtain ⟨q, -, rfl⟩ := List.mem_map.mp hy
    exact nofun
  exact h.wellformed.holds.ring.attach (fun y hy => Function.update_of_ne (hne y hy) _ _)
    fun y hy => Function.update_of_ne (hne y hy) _ _

theorem Frozen.find_none (h : c.Frozen l) (id : Nat) : c.table.find bitsCache id = none := by
  rw [LruTable.find, h.chains_eq]
  rfl

/-- A frozen cache takes no item. -/
theorem Frozen.add (h : c.Frozen l) {id size : Nat} (hsize : 0 < size ∧ size < 2 ^ 32) (lossy : Int)
    (ch : DisplayChannel) : ∃ c' ch', c.add id size lossy ch = some (c', ch', false) ∧ c'.Frozen l ∧
      c'.size = c.size ∧ c'.freed = c.table.next :: c.freed := by
  have hlt : ∀ p ∈ l, p < c.table.next + 1 := fun p hp => (h.lt_next p hp).trans (Nat.lt_succ_self _)
  rw [PixmapCache.add, if_neg (by omega)]
  by_cases hgen : c.generation = ch.pixmapCacheGeneration
  · rw [if_neg (not_not.mpr hgen)]
    have hav := h.available_eq
    have havail : toInt64 (c.available - size) = -1 - size := by
      rw [hav]
      refine toInt64_eq ?_ ?_ <;> omega
    have hback : toInt64 (-1 - size + size) = -1 := by
      rw [sub_add_cancel]
      rfl
    have htail : c.table.links.getTail none = none := h.ring.getTail_eq
    set c₁ : PixmapCache := { c with
      table := c.table.alloc, available := toInt64 (c.available - size) } with hc₁
    have hloop : evictLoop (c.table.next + 1 + 1) c₁ ch = some (c₁, ch, false) := by
      have havail₁ : c₁.available = _ := havail
      have htail₁ : c₁.table.links.getTail none = none := htail
      rw [evictLoop, havail₁, if_neg (by omega), htail₁]
    refine ⟨{ c with table := c.table.alloc, available := -1, freed := c.table.next :: c.freed }, ch, ?_,
      ⟨h.freezed_eq, h.ring, h.chains_eq, rfl, h.attached, hlt⟩, rfl, rfl⟩
    erw [hloop]
    change some ({ c with table := _, available := toInt64 (toInt64 (c.available - size) + size), freed := _ },
      _, _) = _
    rw [havail, hback]
  · rw [if_pos hgen]
    exact ⟨_, _, rfl, ⟨h.freezed_eq, h.ring, h.chains_eq, h.available_eq, h.attached, hlt⟩, rfl, rfl⟩

/-- All items of the ring are freed. -/
theorem clearLoop_eq {n : Nat} (h : IsRing c.table.links none (l.map some)) (hn : l.length < n) :
    ∃ c', clearLoop n c = some c' ∧ IsRing c'.table.links none [] ∧ c'.freed = l.reverse ++ c.freed ∧
      Kept c c' := by
  induction n generalizing c l with
  | zero => omega
  | succ n ih =>
    rw [clearLoop, h.getHead_eq]
    cases l with
    | nil => exact ⟨c, rfl, h, rfl, rfl, rfl, rfl, rfl⟩
    | cons p l =>
      have h' : IsRing c.table.links none ([] ++ some p :: l.map some) := h
      have hring : IsRing (c.table.links.remove (some p)) none (l.map some) := h'.remove
      rw [List.length_cons] at hn
      obtain ⟨c', e, hr, hf, hkept⟩ := @ih { c with
        table := { c.table with links := c.table.links.remove (some p) }
        freed := p :: c.freed } l hring (by omega)
      refine ⟨c', e, hr, ?_, hkept.item_eq, hkept.next_eq, hkept.size_eq, hkept.freezed_eq⟩
      rw [hf, List.reverse_cons, List.append_assoc]
      rfl

theorem clear_eq (h : IsRing c.unfreeze.table.links none (l.map some)) (hlt : ∀ p ∈ l, p < c.table.next) :
    ∃ c', c.clear = some c' ∧ c'.Accounted [] ∧ c'.freed = l.reverse ++ c.freed ∧ c'.size = c.size ∧
      c'.freezed = false := by
  have hun : c.unfreeze.size = c.size ∧ c.unfreeze.freed = c.freed ∧ c.unfreeze.freezed = false := by
    rw [unfreeze]
    split
    · exact ⟨rfl, rfl, rfl⟩
    · next hc => exact ⟨rfl, rfl, by simpa using hc⟩
  have hlen : l.length ≤ c.table.next := by
    have hnodup : l.Nodup := List.Nodup.of_map some (List.nodup_cons.mp h.nodup).2
    have hsub : l ⊆ List.range c.table.next := fun p hp => List.mem_range.mpr (hlt p hp)
    have := (List.subperm_of_subset hnodup hsub).length_le
    rwa [List.length_range] at this
  obtain ⟨c₁, e, hring, hfreed, hkept⟩ := clearLoop_eq h (Nat.lt_succ_of_le hlen)
  refine ⟨{ c₁ with table := { c₁.table with hashTable := fun _ => [] }, available := c₁.size, items := 0 },
    ?_, ⟨⟨LruTable.holds_nil hring fun _ => rfl, nofun, rfl⟩, add_zero _, min_le_right _ _⟩, ?_, ?_, ?_⟩
  · rw [clear, e]
    rfl
  · rw [← hun.2.1]
    exact hfreed
  · rw [← hun.1]
    exact hkept.size_eq
  · rw [← hun.2.2]
    exact hkept.freezed_eq

/-- What the operations keep: the items are accounted for or kept by a frozen ring. -/
structure Inv (size : Int) (c : PixmapCache) : Prop where
  size_eq : c.size = size
  state : c.freezed = false ∧ (∃ l, c.Accounted l) ∨ ∃ l, c.Frozen l

theorem Frozen.unfreeze_links (h : c.Frozen l) : IsRing c.unfreeze.table.links none (l.map some) := by
  rw [unfreeze, if_pos h.freezed_eq]
  exact h.attached

theorem Inv.clear {size : Int} (h : Inv size c) : ∃ c', c.clear = some c' ∧ c'.Accounted [] ∧
    c'.freezed = false ∧ c'.size = size := by
  obtain ⟨rfl, ⟨hc, l, ha⟩ | ⟨l, hf⟩⟩ := h
  · have hun : c.unfreeze = c := by
      rw [unfreeze, hc]
      rfl
    obtain ⟨c', e, hacc, -, hs, hfr⟩ :=
      clear_eq (hun.symm ▸ ha.wellformed.holds.ring) ha.wellformed.holds.lt_next
    exact ⟨c', e, hacc, hfr, hs⟩
  · obtain ⟨c', e, hacc, -, hs, hfr⟩ := clear_eq hf.unfreeze_links hf.lt_next
    exact ⟨c', e, hacc, hfr, hs⟩

/-- What was frozen is freed when the cache is cleared. -/
theorem Frozen.clear (h : c.Frozen l) : ∃ c', c.clear = some c' ∧ ∀ p ∈ l, p ∈ c'.freed := by
  obtain ⟨c', e, -, hfreed, -⟩ := clear_eq h.unfreeze_links h.lt_next
  refine ⟨c', e, fun p hp => ?_⟩
  rw [hfreed]
  exact List.mem_append_left _ (List.mem_reverse.mpr hp)

/-- What the channels do with a cache. -/
inductive Op
  | hit (id : Nat) (ch : DisplayChannel)
  | setLossy (id : Nat) (lossy : Int)
  | add (id size : Nat) (lossy : Int) (ch : DisplayChannel)
  | reset (ch : DisplayChannel)
  | freeze
  | destroy

/-- `none` is a failed assertion or a loop that does not end. -/
def perform (c : PixmapCache) : Op → Option PixmapCache
  | .hit id ch => some (c.hit id ch).2
  | .setLossy id lossy => some (c.setLossy id lossy).2
  | .add id size lossy ch => (c.add id size lossy ch).map (·.1)
  | .reset ch => (c.reset ch).map (·.1)
  | .freeze => some (c.freeze).2
  | .destroy => c.destroy

/-- The size of an item is a positive `uint32_t`. -/
def Op.Valid : Op → Prop
  | .add _ size _ _ => 0 < size ∧ size < 2 ^ 32
  | _ => True

def Op.Clears : Op → Prop
  | .reset _ | .destroy => True
  | _ => False

inductive Step : PixmapCache → Op → PixmapCache → Prop
  | perform {c c' : PixmapCache} {op : Op} (valid : op.Valid) (h : c.perform op = some c') : Step c op c'

theorem Accounted.inv {size : Int} (h : c.Accounted l) (hc : c.freezed = false) (hs : c.size = size) :
    Inv size c := ⟨hs, .inl ⟨hc, l, h⟩⟩

theorem Frozen.perform (h : c.Frozen l) {op : Op} (hop : op.Valid) (hclear : ¬ op.Clears) :
    ∃ c', c.perform op = some c' ∧ c'.Frozen l ∧ c'.size = c.size := by
  cases op with
  | hit id ch =>
    refine ⟨c, ?_, h, rfl⟩
    rw [PixmapCache.perform, hit, h.find_none]
  | setLossy id lossy =>
    refine ⟨c, ?_, h, rfl⟩
    rw [PixmapCache.perform, setLossy, h.find_none]
  | add id size lossy ch =>
    obtain ⟨c', ch', e, hf, hs, -⟩ := h.add hop lossy ch
    exact ⟨c', by rw [PixmapCache.perform, e]; rfl, hf, hs⟩
  | reset ch => exact absurd trivial hclear
  | freeze =>
    refine ⟨c, ?_, h, rfl⟩
    rw [PixmapCache.perform, freeze, h.freezed_eq]
    rfl
  | destroy => exact absurd trivial hclear

theorem Inv.performClear {size : Int} (h : Inv size c) {op : Op} (hop : op.Clears) :
    ∃ c', c.perform op = some c' ∧ Inv size c' := by
  obtain ⟨c', e, ha, hf, hs⟩ := h.clear
  cases op with
  | reset ch =>
    refine ⟨_, by rw [PixmapCache.perform, reset, e]; rfl, ?_⟩
    exact Accounted.inv ⟨⟨ha.wellformed.holds, ha.wellformed.size_pos, ha.wellformed.items_eq⟩,
      ha.available_eq, ha.available_le⟩ hf hs
  | destroy => exact ⟨c', e, ha.inv hf hs⟩
  | _ => exact hop.elim

/-- Every operation ends and keeps the invariant. -/
theorem Inv.perform {size : Int} (h : Inv size c) (hfits : SizeFits size) {op : Op} (hop : op.Valid) :
    ∃ c', c.perform op = some c' ∧ Inv size c' := by
  by_cases hclear : op.Clears
  · exact h.performClear hclear
  obtain ⟨rfl, ⟨hc, l, ha⟩ | ⟨l, hf⟩⟩ := h
  · cases op with
    | hit id ch =>
      obtain ⟨l', ha', hs, hf⟩ := ha.hit id ch
      exact ⟨_, rfl, ha'.inv (hf.trans hc) hs⟩
    | setLossy id lossy =>
      obtain ⟨ha', hs, hf⟩ := ha.setLossy id lossy
      exact ⟨_, rfl, ha'.inv (hf.trans hc) hs⟩
    | add id size lossy ch =>
      obtain ⟨c', ch', ok, l', e, ha', hs, hf, -⟩ := ha.add hfits hop lossy ch
      exact ⟨c', by rw [PixmapCache.perform, e]; rfl, ha'.inv (hf.trans hc) hs⟩
    | reset ch => exact absurd trivial hclear
    | freeze =>
      refine ⟨_, rfl, ?_, .inr ⟨l, ha.freeze hc⟩⟩
      rw [freeze, hc]
      rfl
    | destroy => exact absurd trivial hclear
  · obtain ⟨c', e, hf', hs⟩ := hf.perform hop hclear
    exact ⟨c', e, hs, .inr ⟨l, hf'⟩⟩

theorem create_inv (size : Int) : Inv size (create size) := by
  exact ⟨rfl, .inl ⟨rfl, [], ⟨⟨LruTable.holds_nil (isRing_init _ _) fun _ => rfl, nofun, rfl⟩,
    add_zero _, min_le_right _ _⟩⟩⟩

theorem reachable_inv {size : Int} (hfits : SizeFits size)
    (h : Reachable Step (fun _ _ => True) (create size) c) : Inv size c := by
  refine h.invariant (Inv size) (create_inv size) ?_
  rintro c op c' hinv - ⟨hop, e⟩
  obtain ⟨c₁, e₁, hinv₁⟩ := hinv.perform hfits hop
  obtain rfl := Option.some_inj.mp (e₁.symm.trans e)
  exact hinv₁

/-- A cache that takes no item and keeps those of the list until it is cleared. -/
structure Keeps (c : PixmapCache) (l : List Nat) : Prop where
  rejects : ∀ id size lossy ch, 0 < size → size < 2 ^ 32 →
    ∃ c' ch', c.add id size lossy ch = some (c', ch', false)
  reset_frees : ∀ ch, ∃ c' ch' wait, c.reset ch = some (c', ch', wait) ∧ ∀ p ∈ l, p ∈ c'.freed
  destroy_frees : ∃ c', c.destroy = some c' ∧ ∀ p ∈ l, p ∈ c'.freed

theorem Frozen.keeps (h : c.Frozen l) : c.Keeps l := by
  obtain ⟨c', e, hfreed⟩ := h.clear
  refine ⟨fun id size lossy ch h₀ h₁ => ?_, fun ch => ?_, c', e, hfreed⟩
  · obtain ⟨c', ch', e, -⟩ := h.add ⟨h₀, h₁⟩ lossy ch
    exact ⟨c', ch', e⟩
  · exact ⟨c'.startGeneration ch, _, _, by rw [reset, e]; rfl, hfreed⟩

/-- The accounting of a cache that is not frozen, what frozen caches do, and which items are evicted. -/
structure Correct (c : PixmapCache) : Prop where
  ends : ∀ op : Op, op.Valid → ∃ c', c.perform op = some c'
  accounted : c.freezed = false → ∃ l, c.Accounted l
  frozen : c.freezed = false → ∀ l, c.Accounted l →
    ∀ c', Reachable Step (fun _ op => ¬ op.Clears) (c.freeze).2 c' → c'.Keeps l
  unused : ∀ id size lossy ch c' ch' ok, 0 < size → size < 2 ^ 32 →
    c.add id size lossy ch = some (c', ch', ok) →
    ∀ p < c.table.next, p ∈ c'.freed → p ∉ c.freed → (c.table.item p).sync ch.id ≠ ch.serial

theorem Inv.correct {size : Int} (h : Inv size c) (hfits : SizeFits size) : c.Correct := by
  refine ⟨fun op hop => ?_, fun hc => ?_, fun hc l ha c' hr => ?_, ?_⟩
  · obtain ⟨c', e, -⟩ := h.perform hfits hop
    exact ⟨c', e⟩
  · obtain ⟨-, ⟨-, hl⟩ | ⟨l, hf⟩⟩ := h
    · exact hl
    · exact absurd (hf.freezed_eq.symm.trans hc) nofun
  · refine Frozen.keeps (hr.invariant (fun c => c.Frozen l) (ha.freeze hc) ?_)
    rintro c op c' hf hclear ⟨hop, e⟩
    obtain ⟨c₁, e₁, hf₁, -⟩ := hf.perform hop hclear
    obtain rfl := Option.some_inj.mp (e₁.symm.trans e)
    exact hf₁
  · intro id size lossy ch c' ch' ok h₀ h₁ e p hp hmem hnot
    obtain ⟨rfl, ⟨-, l, ha⟩ | ⟨l, hf⟩⟩ := h
    · obtain ⟨c₁, ch₁, ok₁, l₁, e₁, -, -, -, hunused⟩ := ha.add hfits ⟨h₀, h₁⟩ lossy ch
      obtain rfl : c₁ = c' := congrArg Prod.fst (Option.some_inj.mp (e₁.symm.trans e))
      exact hunused p hp hmem hnot
    · obtain ⟨c₁, ch₁, e₁, -, -, hfreed⟩ := hf.add ⟨h₀, h₁⟩ lossy ch
      obtain rfl : c₁ = c' := congrArg Prod.fst (Option.some_inj.mp (e₁.symm.trans e))
      rw [hfreed] at hmem
      obtain rfl | hmem := List.mem_cons.mp hmem
      · exact absurd hp (Nat.lt_irrefl _)
      · exact absurd hmem hnot

/-- Every cache that is reached is accounted for. -/
theorem reachable_correct {size : Int} (hfits : SizeFits size)
    (h : Reachable Step (fun _ _ => True) (create size) c) : c.Correct :=
  (reachable_inv hfits h).correct hfits

def sampleChannel : DisplayChannel := ⟨⟨1, by decide⟩, 5, 0, false, 0, fun _ => 0, []⟩

/-- A cache of ten pixels, with an item of three. -/
theorem sample_correct : ∃ c, (create 10).perform (.add 7 3 0 sampleChannel) = some c ∧ c.Correct := by
  have hfits : SizeFits 10 := ⟨by norm_num, by norm_num⟩
  have hop : (Op.add 7 3 0 sampleChannel).Valid := ⟨by norm_num, by norm_num⟩
  obtain ⟨c, e, -⟩ := (create_inv 10).perform hfits hop
  exact ⟨c, e, reachable_correct hfits (.step .init trivial (.perform hop e))⟩

/-- The cache of a migrated channel has no size yet. -/
theorem migrated_negative : ∃ c, Reachable Step (fun _ _ => True) (create (-1)) c ∧ c.freezed = false ∧
    c.available < 0 :=
  ⟨create (-1), .init, rfl, by decide⟩

end PixmapCache

end Colama.Spice

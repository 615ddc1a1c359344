import Mathlib.Tactic
import Colama.Spice.PixmapCacheSpec
import Colama.Spice.ClientCache

namespace Colama.Spice

open Lib

namespace Cache

variable {δ : Type*} {T : Treat} {c : Cache δ} {ids ids' : List Nat} {id : Nat}

/-- The chains hold items of these identities, one of each. -/
structure Has (T : Treat) (c : Cache δ) (ids : List Nat) : Prop where
  nodup : ids.Nodup
  chain_nodup : ∀ k, ((c.hash k).map Prod.fst).Nodup
  mem_chain : ∀ k id, id ∈ (c.hash k).map Prod.fst ↔ id ∈ ids ∧ key T id = k

theorem Has.perm (h : c.Has T ids) (hp : ids'.Perm ids) : c.Has T ids' where
  nodup := hp.nodup_iff.mpr h.nodup
  chain_nodup := h.chain_nodup
  mem_chain k id := by rw [h.mem_chain, hp.mem_iff]

theorem Has.mem_own_chain (h : c.Has T ids) : id ∈ (c.hash (key T id)).map Prod.fst ↔ id ∈ ids := by
  rw [h.mem_chain, and_iff_left rfl]

theorem has_empty : (empty : Cache δ).Has T [] where
  nodup := List.nodup_nil
  chain_nodup _ := List.nodup_nil
  mem_chain _ _ := iff_of_false List.not_mem_nil fun h => List.not_mem_nil h.1

/-- One chain is replaced, and the identities of the other chains stay as they are. -/
theorem Has.setChain (h : c.Has T ids) {chain : List (Nat × δ)} (hnodup : ids'.Nodup)
    (hchain : (chain.map Prod.fst).Nodup)
    (hmem : ∀ id', id' ∈ chain.map Prod.fst ↔ id' ∈ ids' ∧ key T id' = key T id)
    (hother : ∀ id', key T id' ≠ key T id → (id' ∈ ids ↔ id' ∈ ids')) :
    (c.setChain (key T id) chain).Has T ids' := by
  refine ⟨hnodup, fun k => ?_, fun k id' => ?_⟩
  · change ((Function.update c.hash _ _ k).map Prod.fst).Nodup
    by_cases hk : k = key T id
    · rwa [hk, Function.update_self]
    · rw [Function.update_of_ne hk]
      exact h.chain_nodup k
  · change id' ∈ (Function.update c.hash _ _ k).map Prod.fst ↔ _
    by_cases hk : k = key T id
    · rw [hk, Function.update_self]
      exact hmem id'
    · rw [Function.update_of_ne hk, h.mem_chain]
      refine and_congr_left fun hkey => hother id' fun he => hk ?_
      rw [← hkey, he]

theorem Has.add (h : c.Has T ids) (hid : id ∉ ids) (data : δ) :
    ∃ c', c.add T id data = .ok c' ∧ c'.Has T (id :: ids) := by
  have hchain : id ∉ (c.hash (key T id)).map Prod.fst := fun hmem => hid (h.mem_own_chain.mp hmem)
  refine ⟨_, by rw [Cache.add, if_neg hchain]; rfl,
    h.setChain (List.nodup_cons.mpr ⟨hid, h.nodup⟩) ?_ (fun id' => ?_) fun id' hkey => ?_⟩
  · rw [List.map_append, List.map_singleton]
    exact List.nodup_append_comm.mp (List.nodup_cons.mpr ⟨hchain, h.chain_nodup _⟩)
  · rw [List.map_append, List.map_singleton, List.mem_append, List.mem_singleton, List.mem_cons, h.mem_chain]
    constructor
    · rintro (⟨hids, hkey⟩ | rfl)
      · exact ⟨.inr hids, hkey⟩
      · exact ⟨.inl rfl, rfl⟩
    · rintro ⟨rfl | hids, hkey⟩
      · exact .inr rfl
      · exact .inl ⟨hids, hkey⟩
  · have hne : id' ≠ id := fun he => hkey (by rw [he])
    rw [List.mem_cons, or_iff_right hne]

theorem Has.get (h : c.Has T ids) (hid : id ∈ ids) : ∃ data, c.get T id = .ok data := by
  obtain ⟨item, hitem, he⟩ := List.mem_map.mp (h.mem_own_chain.mpr hid)
  rw [Cache.get]
  cases hfind : (c.hash (key T id)).find? fun item => item.1 = id with
  | none => exact absurd he (by simpa using List.find?_eq_none.mp hfind item hitem)
  | some item' => exact ⟨item'.2, rfl⟩

theorem map_eraseP (l : List (Nat × δ)) (id : Nat) :
    (l.eraseP fun item => item.1 = id).map Prod.fst = (l.map Prod.fst).erase id := by
  rw [List.erase_eq_eraseP, List.eraseP_map]
  refine congrArg _ (congrArg (List.eraseP · l) (funext fun item => ?_))
  rw [Function.comp_apply, beq_eq_decide]
  exact decide_eq_decide.mpr eq_comm

theorem Has.remove (h : c.Has T (ids ++ id :: ids')) :
    ∃ c', c.remove T id = .ok c' ∧ c'.Has T (ids ++ ids') := by
  have hperm : (id :: (ids ++ ids')).Perm (ids ++ id :: ids') := List.perm_middle.symm
  obtain ⟨hid, hnodup⟩ := List.nodup_cons.mp (hperm.nodup_iff.mpr h.nodup)
  have hchain := h.mem_own_chain.mpr (hperm.mem_iff.mp List.mem_cons_self)
  refine ⟨_, by rw [Cache.remove, if_pos hchain]; rfl,
    h.setChain hnodup ?_ (fun id' => ?_) fun id' hkey => ?_⟩
  · rw [map_eraseP]
    exact (h.chain_nodup _).erase id
  · rw [map_eraseP, (h.chain_nodup _).mem_erase_iff, h.mem_chain, ← hperm.mem_iff, List.mem_cons]
    constructor
    · rintro ⟨hne, rfl | hids, hkey⟩
      · exact absurd rfl hne
      · exact ⟨hids, hkey⟩
    · rintro ⟨hids, hkey⟩
      exact ⟨fun he => hid (he ▸ hids), .inr hids, hkey⟩
  · have hne : id' ≠ id := fun he => hkey (by rw [he])
    rw [← hperm.mem_iff, List.mem_cons, or_iff_right hne]

theorem run_concat {c₀ c c' : Cache δ} {commands : List (CacheCommand δ)} {command : CacheCommand δ}
    (h : c₀.run T commands = .ok c) (h' : c.handle T command = .ok c') :
    c₀.run T (commands ++ [command]) = .ok c' := by
  rw [run, List.foldlM_append, ← run, h]
  change (handle T c command >>= pure) = _
  rw [h']
  rfl

end Cache

namespace CacheChannel

/-- The sizes of some items in all. -/
def sizes (ch : CacheChannel) (l : List Nat) : Int := ch.table.total CacheItem.size l

/-- What the client holds once everything before the items of the pipe has come. -/
def ids (ch : CacheChannel) (l : List Nat) : List Nat := l.map (fun p => (ch.table.item p).id) ++ ch.pipe

/-- The chains and the ring hold the items of the list, the last used first, and with them `size` is used up. -/
structure Accounted (ch : CacheChannel) (size : Int) (l : List Nat) : Prop where
  holds : ch.table.Holds clientCache l
  items_eq : ch.items = l.length % 2 ^ 32
  available_eq : ch.available + ch.sizes l = size

variable {ch ch' : CacheChannel} {size : Int} {l l' : List Nat} {p : Nat}

theorem ids_concat (ch : CacheChannel) (l : List Nat) (p : Nat) :
    (ch.unlink p).ids l = ch.ids (l ++ [p]) := by
  rw [ids, ids, List.map_append, List.append_assoc]
  rfl

theorem Accounted.unlink (h : ch.Accounted size (l ++ [p])) (hlow : -(2 ^ 63) ≤ ch.available)
    (hhigh : size < 2 ^ 63) : (ch.unlink p).Accounted size l ∧ ch.available ≤ (ch.unlink p).available := by
  have htotal := h.available_eq
  rw [sizes, LruTable.total_concat] at htotal
  have hnonneg := ch.table.total_nonneg CacheItem.size l
  have heq : (ch.unlink p).available = ch.available + (ch.table.item p).size :=
    toInt64_eq (by omega) (by omega)
  refine ⟨⟨h.holds.unlink, ?_, ?_⟩, by omega⟩
  · change (ch.items + (2 ^ 32 - 1)) % 2 ^ 32 = _
    rw [h.items_eq, List.length_append, List.length_singleton]
    omega
  · rw [heq]
    change _ + ch.table.total CacheItem.size l = _
    omega

/-- Items were removed from the tail of the ring. -/
structure Removed (ch : CacheChannel) (size : Int) (l : List Nat) (ch' : CacheChannel) (l' : List Nat) :
    Prop where
  accounted : ch'.Accounted size l'
  sublist : ∃ gone, l = l' ++ gone
  ids_eq : ch'.ids l' = ch.ids l
  next_eq : ch'.table.next = ch.table.next

theorem Removed.refl (h : ch.Accounted size l) : Removed ch size l ch l where
  accounted := h
  sublist := ⟨[], (List.append_nil l).symm⟩
  ids_eq := rfl
  next_eq := rfl

theorem Removed.unlink (h : Removed (ch.unlink p) size l ch' l') : Removed ch size (l ++ [p]) ch' l' where
  accounted := h.accounted
  sublist := by
    obtain ⟨gone, rfl⟩ := h.sublist
    exact ⟨gone ++ [p], List.append_assoc _ _ _⟩
  ids_eq := by rw [h.ids_eq, ids_concat]
  next_eq := h.next_eq

/-- The loop ends: there is room, or nothing is cached any more. -/
theorem addLoop_spec {n : Nat} (h : ch.Accounted size l) (hlow : -(2 ^ 63) ≤ ch.available)
    (hhigh : size < 2 ^ 63) (hn : l.length < n) :
    ∃ ch' b l', addLoop n ch = some (ch', b) ∧ Removed ch size l ch' l' ∧
      cond b (0 ≤ ch'.available) (l' = []) := by
  induction n generalizing ch l with
  | zero => exact absurd hn (Nat.not_lt_zero _)
  | succ n ih =>
    rw [addLoop]
    by_cases hroom : 0 ≤ ch.available
    · rw [if_pos hroom]
      exact ⟨ch, true, l, rfl, Removed.refl h, hroom⟩
    · rw [if_neg hroom]
      obtain rfl | ⟨l, p, rfl⟩ := List.eq_nil_or_concat l
      · rw [h.holds.getTail_nil]
        exact ⟨ch, false, [], rfl, Removed.refl h, rfl⟩
      · rw [List.concat_eq_append] at *
        rw [h.holds.getTail_concat]
        have hchain : p ∈ ch.table.hashTable (cacheHashKey (ch.table.item p).id) :=
          h.holds.mem_own_chain (List.mem_append_right l (List.mem_singleton_self p))
        obtain ⟨hunlinked, hle⟩ := h.unlink hlow hhigh
        rw [List.length_append, List.length_singleton] at hn
        obtain ⟨ch', b, l', heq, hremoved, hb⟩ := ih hunlinked (hlow.trans hle) (by omega)
        refine ⟨ch', b, l', ?_, hremoved.unlink, hb⟩
        change (ch.remove p >>= fun ch => addLoop n ch) = _
        rw [remove, if_pos hchain]
        exact heq

theorem Accounted.find_hit (h : ch.Accounted size l) (id : Nat) (hfind : (ch.find id).1 = true) :
    ∃ l', (ch.find id).2.Accounted size l' ∧ ((ch.find id).2.ids l').Perm (ch.ids l) ∧ id ∈ ch.ids l := by
  unfold find at *
  cases hp : ch.table.find clientCache id with
  | none =>
    rw [hp] at hfind
    exact absurd hfind Bool.false_ne_true
  | some p =>
    obtain ⟨hmem, hid⟩ := h.holds.find_mem hp
    obtain ⟨l', hperm, hholds⟩ := h.holds.touch hmem
    refine ⟨l', ⟨hholds, ?_, ?_⟩, (hperm.map _).append_right _, ?_⟩
    · rw [hperm.length_eq]
      exact h.items_eq
    · rw [← h.available_eq]
      exact congrArg _ (LruTable.total_perm hperm)
    · exact List.mem_append_left _ (List.mem_map.mpr ⟨p, hmem, hid⟩)

theorem Accounted.find_miss (h : ch.Accounted size l) (id : Nat) (hfind : (ch.find id).1 = false) :
    (ch.find id).2 = ch ∧ id ∉ l.map fun p => (ch.table.item p).id := by
  unfold find at *
  cases hp : ch.table.find clientCache id with
  | none =>
    refine ⟨rfl, fun hmem => ?_⟩
    obtain ⟨p, hp', hid⟩ := List.mem_map.mp hmem
    exact h.holds.find_none hp p hp' hid
  | some p =>
    rw [hp] at hfind
    exact absurd hfind.symm Bool.false_ne_true

theorem Accounted.alloc (h : ch.Accounted size l) (hroom : 0 ≤ ch.available) (hsize : size < 2 ^ 63) {n : Nat}
    (hn : n < 2 ^ 63) :
    { ch with table := ch.table.alloc, available := toInt64 (ch.available - n) }.Accounted (size - n) l ∧
      toInt64 (ch.available - n) = ch.available - n := by
  have htotal := h.available_eq
  have hnonneg := ch.table.total_nonneg CacheItem.size l
  rw [sizes] at htotal
  have heq : toInt64 (ch.available - n) = ch.available - n := toInt64_eq (by omega) (by omega)
  refine ⟨⟨h.holds.alloc, h.items_eq, ?_⟩, heq⟩
  change toInt64 (ch.available - n) + ch.table.total CacheItem.size l = _
  rw [heq]
  omega

theorem Accounted.link {n : Nat} (h : ch.Accounted (size - n) l) (id : Nat) (hp : p ∉ l) (hlt : p < ch.table.next) :
    (ch.link p id n).Accounted size (p :: l) ∧ (ch.link p id n).ids (p :: l) = id :: ch.ids l := by
  have hother : ∀ q ∈ l, ((ch.link p id n).table.item q).id = (ch.table.item q).id := fun q hq =>
    congrArg CacheItem.id (LruTable.link_item_of_ne fun he => hp (he ▸ hq))
  refine ⟨⟨h.holds.link hp hlt _, ?_, ?_⟩, ?_⟩
  · change (ch.items + 1) % 2 ^ 32 = _
    rw [h.items_eq, List.length_cons, Nat.mod_add_mod]
  · change ch.available + (ch.table.link clientCache p ⟨id, n⟩).total CacheItem.size (p :: l) = size
    have htotal := h.available_eq
    rw [sizes] at htotal
    rw [LruTable.total_link hp]
    change ch.available + ((n : Int) + _) = size
    omega
  · change ((ch.table.link clientCache p ⟨id, n⟩).item p).id :: (_ ++ ch.pipe) = _
    rw [LruTable.link_item_self, List.map_congr_left hother]
    rfl

theorem Accounted.add (h : ch.Accounted size l) (hroom : 0 ≤ ch.available) (hsize : size < 2 ^ 63) (id : Nat)
    {n : Nat} (hn : n < 2 ^ 63) : ∃ ch' b l', ch.add id n = some (ch', b) ∧ ch'.Accounted size l' ∧ 0 ≤ ch'.available ∧
      ch'.ids l' = cond b (id :: ch.ids l) (ch.ids l) := by
  have htotal := h.available_eq
  have hnonneg := ch.table.total_nonneg CacheItem.size l
  rw [sizes] at htotal
  obtain ⟨halloc, heq⟩ := h.alloc hroom hsize hn
  have hlen : l.length < ch.table.alloc.next + 1 := Nat.lt_succ_of_le halloc.holds.length_le
  have hlow : -(2 ^ 63) ≤ toInt64 (ch.available - n) := by omega
  obtain ⟨ch', b, l', hloop, hremoved, hb⟩ := addLoop_spec halloc hlow (by omega) hlen
  have hp : ch.table.next ∉ l' := by
    obtain ⟨gone, rfl⟩ := hremoved.sublist
    exact fun hmem => h.holds.next_notMem (List.mem_append_left _ hmem)
  have hlt : ch.table.next < ch'.table.next := by
    rw [hremoved.next_eq]
    exact Nat.lt_succ_self _
  unfold CacheChannel.add
  dsimp only
  rw [hloop]
  cases b with
  | true =>
    obtain ⟨hlinked, hids⟩ := hremoved.accounted.link id hp hlt
    exact ⟨_, true, _, rfl, hlinked, hb, hids.trans (congrArg _ hremoved.ids_eq)⟩
  | false =>
    subst hb
    have hlast := hremoved.accounted.available_eq
    rw [sizes, LruTable.total_nil, add_zero] at hlast
    have hback : toInt64 (ch'.available + n) = size := by
      rw [hlast]
      exact toInt64_eq (by omega) (by omega) |>.trans (by omega)
    refine ⟨_, false, [], rfl, ⟨hremoved.accounted.holds, hremoved.accounted.items_eq, ?_⟩, ?_, hremoved.ids_eq⟩
    · change toInt64 (ch'.available + n) + 0 = size
      rw [hback, add_zero]
    · change 0 ≤ toInt64 (ch'.available + n)
      omega

theorem accounted_reset (ch : CacheChannel) (size : Int) : (ch.reset size).Accounted size [] where
  holds := LruTable.holds_nil (isRing_init _ _) fun _ => rfl
  items_eq := rfl
  available_eq := add_zero size

theorem accounted_create (size : Int) : (create size).Accounted size [] where
  holds := LruTable.holds_nil (isRing_init _ _) fun _ => rfl
  items_eq := rfl
  available_eq := add_zero size

/-- Whatever is asked for, the server fills it in, and the client is to be told what it then needs to know. -/
theorem Accounted.fill {δ : Type*} (h : ch.Accounted size l) (hroom : 0 ≤ ch.available) (hsize : size < 2 ^ 63)
    {r : CacheRequest δ} (hr : r.size < 2 ^ 63) :
    ∃ ch' commands l', ch.fill r = some (ch', commands) ∧ ch'.Accounted size l' ∧ 0 ≤ ch'.available ∧
      (commands = [.get r.id] ∧ r.id ∈ ch.ids l ∧ (ch'.ids l').Perm (ch.ids l) ∨
        (ch.find r.id).1 = false ∧ r.id ∉ l.map (fun p => (ch.table.item p).id) ∧
          (commands = [.add r.id r.data] ∧ ch'.ids l' = r.id :: ch.ids l ∨
            commands = [] ∧ ch'.ids l' = ch.ids l)) := by
  unfold CacheChannel.fill
  cases hfind : ch.find r.id with
  | mk found ch₁ =>
    cases found with
    | true =>
      obtain ⟨l', haccounted, hperm, hmem⟩ := h.find_hit r.id (by rw [hfind])
      have hsame : (ch.find r.id).2.available = ch.available := by
        unfold find
        cases ch.table.find clientCache r.id <;> rfl
      rw [hfind] at haccounted hperm hsame
      exact ⟨ch₁, _, l', rfl, haccounted, hsame ▸ hroom, .inl ⟨rfl, hmem, hperm⟩⟩
    | false =>
      obtain ⟨hsame, hnew⟩ := h.find_miss r.id (by rw [hfind])
      rw [hfind] at hsame
      subst hsame
      obtain ⟨ch', b, l', hadd, haccounted, hroom', hids⟩ := h.add hroom hsize r.id hr
      dsimp only
      rw [hadd]
      cases b with
      | true => exact ⟨ch', _, l', rfl, haccounted, hroom', .inr ⟨rfl, hnew, .inl ⟨rfl, hids⟩⟩⟩
      | false => exact ⟨ch', _, l', rfl, haccounted, hroom', .inr ⟨rfl, hnew, .inr ⟨rfl, hids⟩⟩⟩

end CacheChannel

namespace CacheSession

variable {δ : Type*} {T : Treat} {s s' : CacheSession δ}

/-- What is not cached is not what an item in the pipe is still to take out on the client. -/
def Fresh (s : CacheSession δ) (r : CacheRequest δ) : Prop :=
  r.size < 2 ^ 63 ∧ ((s.channel.find r.id).1 = false → r.id ∉ s.channel.pipe)

/-- Each request of a message is fresh when its turn comes. -/
def AllFresh : CacheSession δ → List (CacheRequest δ) → Prop
  | _, [] => True
  | s, r :: requests => s.Fresh r ∧ ∀ s', s.fill r = some s' → AllFresh s' requests

def Ok (s : CacheSession δ) : CacheOp δ → Prop
  | .message requests => s.AllFresh requests
  | .sendInval => True
  | .reset size => 0 ≤ size ∧ size < 2 ^ 63

/-- What the two sides agree on. The client threw nothing so far, on the server the sizes add up, and the next
request is filled in without a failed assertion. -/
structure Agree (T : Treat) (s : CacheSession δ) : Prop where
  client : ∃ c : Cache δ, Cache.empty.run T s.wire = .ok c
  server : ∃ l, s.channel.Accounted s.size l ∧ 0 ≤ s.channel.available
  fills : ∀ r : CacheRequest δ, r.size < 2 ^ 63 → ∃ s', s.fill r = some s'

/-- The client holds what the server has cached and what the items in the pipe will take out. -/
structure Inv (T : Treat) (s : CacheSession δ) (c : Cache δ) (l : List Nat) : Prop where
  run_eq : Cache.empty.run T s.wire = .ok c
  has : c.Has T (s.channel.ids l)
  accounted : s.channel.Accounted s.size l
  room : 0 ≤ s.channel.available
  size_lt : s.size < 2 ^ 63

theorem Inv.fill {c : Cache δ} {l : List Nat} (h : s.Inv T c l) {r : CacheRequest δ} (hr : s.Fresh r) :
    ∃ s', s.fill r = some s' ∧ ∃ c' l', s'.Inv T c' l' := by
  obtain ⟨ch, commands, l', hfill, haccounted, hroom, hcase⟩ := h.accounted.fill h.room h.size_lt hr.1
  refine ⟨{ s with channel := ch, wire := s.wire ++ commands }, by rw [CacheSession.fill, hfill], ?_⟩
  rcases hcase with ⟨rfl, hmem, hperm⟩ | ⟨hmiss, hnew, ⟨rfl, hids⟩ | ⟨rfl, hids⟩⟩
  · obtain ⟨data, hget⟩ := h.has.get hmem
    have hhandle : c.handle T (.get r.id) = .ok c := by
      change (c.get T r.id >>= fun _ => pure c) = _
      rw [hget]
      rfl
    exact ⟨c, l', Cache.run_concat h.run_eq hhandle, h.has.perm hperm, haccounted, hroom, h.size_lt⟩
  · have hid : r.id ∉ s.channel.ids l := by
      rw [CacheChannel.ids, List.mem_append, not_or]
      exact ⟨hnew, hr.2 hmiss⟩
    obtain ⟨c', hadd, hhas⟩ := h.has.add hid r.data
    exact ⟨c', l', Cache.run_concat h.run_eq hadd, hids ▸ hhas, haccounted, hroom, h.size_lt⟩
  · refine ⟨c, l', ?_, hids ▸ h.has, haccounted, hroom, h.size_lt⟩
    change Cache.empty.run T (s.wire ++ []) = _
    rw [List.append_nil]
    exact h.run_eq

theorem Inv.message {c : Cache δ} {l : List Nat} (h : s.Inv T c l) {requests : List (CacheRequest δ)}
    (hr : s.AllFresh requests) : ∃ s', requests.foldlM CacheSession.fill s = some s' ∧ ∃ c' l', s'.Inv T c' l' := by
  induction requests generalizing s c l with
  | nil => exact ⟨s, rfl, c, l, h⟩
  | cons r requests ih =>
    obtain ⟨s₁, hfill, c₁, l₁, h₁⟩ := h.fill hr.1
    obtain ⟨s', hrest, hinv⟩ := ih h₁ (hr.2 s₁ hfill)
    exact ⟨s', by rw [List.foldlM_cons, hfill]; exact hrest, hinv⟩

theorem Inv.sendInval {c : Cache δ} {l : List Nat} (h : s.Inv T c l) (hs : s.perform .sendInval = some s') :
    ∃ c' l', s'.Inv T c' l' := by
  unfold perform at hs
  cases hpipe : s.channel.pipe with
  | nil =>
    rw [hpipe] at hs
    exact absurd hs nofun
  | cons id pipe =>
    rw [hpipe] at hs
    cases hs
    have hhas := h.has
    rw [CacheChannel.ids, hpipe] at hhas
    obtain ⟨c', hremove, hhas'⟩ := hhas.remove
    exact ⟨c', l, Cache.run_concat h.run_eq hremove, hhas',
      ⟨h.accounted.holds, h.accounted.items_eq, h.accounted.available_eq⟩, h.room, h.size_lt⟩

theorem Inv.reset {c : Cache δ} {l : List Nat} (h : s.Inv T c l) {size : Int} (hsize : 0 ≤ size ∧ size < 2 ^ 63)
    (hs : s.perform (.reset size) = some s') : ∃ c' l', s'.Inv T c' l' := by
  change (if s.channel.pipe = [] then some (CacheSession.mk _ size (s.wire ++ [.invalAll])) else none) = some s' at hs
  by_cases hpipe : s.channel.pipe = []
  · rw [if_pos hpipe] at hs
    cases hs
    have hids : (s.channel.reset size).ids [] = [] := hpipe
    refine ⟨Cache.empty, [], Cache.run_concat h.run_eq rfl, ?_, CacheChannel.accounted_reset _ _, hsize.1,
      hsize.2⟩
    rw [hids]
    exact Cache.has_empty
  · rw [if_neg hpipe] at hs
    exact absurd hs nofun

theorem inv_create {size : Int} (hsize : 0 ≤ size ∧ size < 2 ^ 63) :
    (create size : CacheSession δ).Inv T Cache.empty [] :=
  ⟨rfl, Cache.has_empty, CacheChannel.accounted_create size, hsize.1, hsize.2⟩

theorem Inv.step {c : Cache δ} {l : List Nat} (h : s.Inv T c l) {op : CacheOp δ} (hop : s.Ok op)
    (hs : s.Step op s') : ∃ c' l', s'.Inv T c' l' := by
  cases op with
  | message requests =>
    obtain ⟨s₁, hmessage, hinv⟩ := h.message hop
    cases hmessage.symm.trans hs
    exact hinv
  | sendInval => exact h.sendInval hs
  | reset size => exact h.reset hop hs

theorem Inv.agree {c : Cache δ} {l : List Nat} (h : s.Inv T c l) : s.Agree T where
  client := ⟨c, h.run_eq⟩
  server := ⟨l, h.accounted, h.room⟩
  fills r hr := by
    obtain ⟨ch, commands, l', hfill, -⟩ := h.accounted.fill h.room h.size_lt hr
    exact ⟨{ s with channel := ch, wire := s.wire ++ commands }, by rw [CacheSession.fill, hfill]⟩

/-- While nothing is asked for that the pipe is still to take out, the client finds what it is told to find. -/
theorem reachable_agree {size : Int} (hsize : 0 ≤ size ∧ size < 2 ^ 63)
    (h : Reachable Step Ok (create size : CacheSession δ) s) : s.Agree T := by
  have hinv : ∃ c l, s.Inv T c l :=
    h.invariant (fun s => ∃ c l, s.Inv T c l) ⟨_, _, inv_create hsize⟩ fun _ _ _ ⟨_, _, hs⟩ hok hstep =>
      hs.step hok hstep
  obtain ⟨c, l, hinv⟩ := hinv
  exact hinv.agree

def sampleRequest (id : Nat) : CacheRequest Unit := ⟨id, 1, ()⟩

theorem sample_agree : ∃ s : CacheSession Unit,
    Reachable Step Ok (create clientPaletteCacheSize) s ∧ s.Agree paletteCacheTreat := by
  have hsize : 0 ≤ clientPaletteCacheSize ∧ clientPaletteCacheSize < 2 ^ 63 := by decide
  have hfresh : (create clientPaletteCacheSize).AllFresh [sampleRequest 1] :=
    ⟨⟨by decide, fun _ => List.not_mem_nil⟩, fun _ _ => trivial⟩
  obtain ⟨s, hs, -⟩ := (inv_create (T := paletteCacheTreat) hsize).message hfresh
  have hreach : Reachable Step Ok (create clientPaletteCacheSize) s :=
    Reachable.step (a := .message [sampleRequest 1]) .init hfresh hs
  exact ⟨s, hreach, reachable_agree hsize hreach⟩

/-- The cache is filled with palettes; then one message needs a new one and after it the one used longest ago. -/
def fullThenTwo : List (CacheOp Unit) :=
  ((List.range 128).map fun n => .message [sampleRequest (n + 1)]) ++
    [.message [sampleRequest 129, sampleRequest 1]]

/-- What the client throws when it meets the commands. -/
def thrown (T : Treat) (commands : List (CacheCommand Unit)) : Option String :=
  match (Cache.empty : Cache Unit).run T commands with
  | .ok _ => none
  | .error e => some e

/-- The palette that the message evicts and then sends again comes before the client has dropped the old one. -/
theorem double_insert : ∃ s : CacheSession Unit,
    Reachable Step (fun _ _ => True) (create clientPaletteCacheSize) s ∧
      thrown paletteCacheTreat s.wire = some "palette id 1, double insert" ∧ ¬ s.Agree paletteCacheTreat := by
  have hrun : (fullThenTwo.foldlM perform (create clientPaletteCacheSize)).map
      (fun s => thrown paletteCacheTreat s.wire) = some (some "palette id 1, double insert") := by
    decide +kernel
  obtain ⟨s, hs, hthrown⟩ := Option.map_eq_some_iff.mp hrun
  refine ⟨s, Reachable.foldlM .init (fun _ _ _ => trivial) hs, hthrown, fun hagree => ?_⟩
  obtain ⟨c, hc⟩ := hagree.client
  rw [thrown, hc] at hthrown
  exact absurd hthrown nofun

end CacheSession

end Colama.Spice

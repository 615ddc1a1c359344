import Mathlib.Tactic
import Colama.Spice.PixmapCacheSpec
import Colama.Spice.PixmapSync

namespace Colama.Spice

open Lib

/-- The items that a message adds to the cache of the client. -/
def adds (body : List ImageUse) : List (Nat × Nat) :=
  body.filterMap fun
    | .cacheMe item _ => some item
    | .cached _ _ => none

theorem adds_append (body body' : List ImageUse) : adds (body ++ body') = adds body ++ adds body' :=
  List.filterMap_append

namespace PixmapCache

variable {c c' : PixmapCache} {ch ch' : DisplayChannel} {l l' gone : List Nat} {ok : Bool}

theorem Added.evicted_eq {new : NewCacheItem} (h : Added c ch new l c' ch' ok l' gone)
    (hlt : ∀ p ∈ l, p < c.table.next) : c.evicted c' = gone.map fun p => (p, (c.table.item p).id) := by
  have hgone : ∀ p ∈ gone, p ≠ c.table.next := fun p hp =>
    Nat.ne_of_lt (hlt p (by rw [h.list_eq]; exact List.mem_append_right _ (List.mem_reverse.mpr hp)))
  have htake : c'.freed.take (c'.freed.length - c.freed.length) = cond ok [] [c.table.next] ++ gone.reverse := by
    rw [h.freed_eq, List.length_append, Nat.add_sub_cancel, List.take_left']
    rfl
  have hkeep : gone.reverse.filter (· ≠ c.table.next) = gone.reverse :=
    List.filter_eq_self.mpr fun p hp => decide_eq_true (hgone p (List.mem_reverse.mp hp))
  have hdrop : (cond ok [] [c.table.next]).filter (· ≠ c.table.next) = [] := by
    cases ok <;> simp
  rw [evicted, htake, List.filter_append, hkeep, hdrop, List.nil_append, List.reverse_reverse]

end PixmapCache

/-- What the log says about an item of the cache: who added it, and that the last uses are those it records. -/
structure Logged (log : PoolLog Channels (Nat × Nat)) (serial : Channels → Nat) (p : Nat) (item : NewCacheItem) :
    Prop where
  author : ∃ m, .add m (p, item.id) ∈ log
  live : ∀ m, .evict m (p, item.id) ∉ log
  uses_le : ∀ m, Uses log m (p, item.id) → m.2 ≤ item.sync m.1
  sync_le : ∀ A, item.sync A ≤ serial A

/-- What the log says about the message that the channel is making. -/
structure Making (log : PoolLog Channels (Nat × Nat)) (ch : DisplayChannel) (gone : List (Nat × Nat))
    (body : List ImageUse) : Prop where
  gone_nodup : gone.Nodup
  gone_mem : ∀ x, x ∈ gone ↔ .evict (ch.id, ch.serial) x ∈ log
  res_eq : gone.map Prod.snd = ch.freeListRes
  covers : ∀ x ∈ gone, ∀ m, Uses log m x → m.2 ≤ ch.freeListSync m.1
  adds_nodup : (adds body).Nodup
  adds_mem : ∀ x, x ∈ adds body ↔ .add (ch.id, ch.serial) x ∈ log

structure ServerInv (s : DisplayServer) (l : List Nat) : Prop where
  id_eq : ∀ A, (s.channel A).id = A
  legal : Legal s.log
  last : ∀ e ∈ s.log, e.message.2 ≤ (s.channel e.message.1).serial
  sent : ∀ A n, n ≠ 0 → n ≤ (s.channel A).serial → (n = (s.channel A).serial → s.building A = false) →
    Sent s.log (A, n)
  unsent : ∀ A, s.building A = true → (s.channel A).serial ≠ 0 ∧ ¬ Sent s.log (s.message A)
  size_fits : PixmapCache.SizeFits s.cache.size
  accounted : s.cache.Accounted l
  fresh : ∀ m x, Uses s.log m x → x.1 < s.cache.table.next
  logged : ∀ p ∈ l, Logged s.log (fun A => (s.channel A).serial) p (s.cache.table.item p)
  making : ∀ A, s.building A = true → Making s.log (s.channel A) (s.gone A) (s.body A)

variable {log log' : PoolLog Channels (Nat × Nat)} {ch ch' : DisplayChannel} {gone : List (Nat × Nat)}
  {body : List ImageUse} {s : DisplayServer} {l : List Nat} {A B : Channels}

theorem ServerInv.isOpen (h : ServerInv s l) (hA : s.building A = true) : Open s.log (s.message A) where
  ne_zero := (h.unsent A hA).1
  unsent := (h.unsent A hA).2
  last e he hm := by
    have hle := h.last e he
    rwa [hm] at hle
  before n hn hlt := h.sent A n hn (Nat.le_of_lt hlt) fun he => absurd he (Nat.ne_of_lt hlt)

/-- Only what the message itself adds and evicts concerns it. -/
theorem Making.mono (h : Making log ch gone body) (hs : log <:+ log') (hlegal : Legal log')
    (hevict : ∀ x, .evict (ch.id, ch.serial) x ∈ log' → .evict (ch.id, ch.serial) x ∈ log)
    (hadd : ∀ x, .add (ch.id, ch.serial) x ∈ log' → .add (ch.id, ch.serial) x ∈ log) :
    Making log' ch gone body where
  gone_nodup := h.gone_nodup
  gone_mem x := by
    rw [h.gone_mem]
    exact ⟨(hs.subset ·), hevict x⟩
  res_eq := h.res_eq
  covers x hx m hu := by
    obtain ⟨old, hold⟩ := exists_suffix ((h.gone_mem x).mp hx)
    exact h.covers x hx m ((hlegal.uses_of_evict (hold.trans hs) hu).mono (old_suffix hold))
  adds_nodup := h.adds_nodup
  adds_mem x := by
    rw [h.adds_mem]
    exact ⟨(hs.subset ·), hadd x⟩

theorem Making.of_adds (h : Making log ch gone body) {body' : List ImageUse} (hbody : adds body' = adds body) :
    Making log ch gone body' :=
  ⟨h.gone_nodup, h.gone_mem, h.res_eq, h.covers, hbody ▸ h.adds_nodup, hbody ▸ h.adds_mem⟩

theorem Logged.mono {serial : Channels → Nat} {p : Nat} {item : NewCacheItem} (h : Logged log serial p item)
    (hs : log <:+ log') (hlive : ∀ m, .evict m (p, item.id) ∉ log')
    (huses : ∀ m, Uses log' m (p, item.id) → Uses log m (p, item.id)) : Logged log' serial p item where
  author := by
    obtain ⟨m, hm⟩ := h.author
    exact ⟨m, hs.subset hm⟩
  live := hlive
  uses_le m hu := h.uses_le m (huses m hu)
  sync_le := h.sync_le

theorem serverInv_create {size : Int} (hfits : PixmapCache.SizeFits size) :
    ServerInv (DisplayServer.create size) [] where
  id_eq _ := rfl
  legal := legal_nil
  last := nofun
  sent _ _ hn hle := absurd (Nat.le_zero.mp hle) hn
  unsent _ := nofun
  size_fits := hfits
  accounted := ⟨⟨LruTable.holds_nil (isRing_init _ _) fun _ => rfl, nofun, rfl⟩, add_zero _, min_le_right _ _⟩
  fresh _ _ hu := hu.elim (absurd · List.not_mem_nil) (absurd · List.not_mem_nil)
  logged := nofun
  making _ := nofun

namespace DisplayServer

@[simp] theorem start_channel_self (s : DisplayServer) (A : Channels) :
    (s.start A).channel A = (s.channel A).resetSendData := Function.update_self _ _ _

@[simp] theorem start_building_self (s : DisplayServer) (A : Channels) : (s.start A).building A = true :=
  Function.update_self _ _ _

@[simp] theorem start_gone_self (s : DisplayServer) (A : Channels) : (s.start A).gone A = [] :=
  Function.update_self _ _ _

@[simp] theorem start_body_self (s : DisplayServer) (A : Channels) : (s.start A).body A = [] :=
  Function.update_self _ _ _

theorem start_channel_of_ne (s : DisplayServer) (h : B ≠ A) : (s.start A).channel B = s.channel B :=
  Function.update_of_ne h _ _

theorem start_building_of_ne (s : DisplayServer) (h : B ≠ A) : (s.start A).building B = s.building B :=
  Function.update_of_ne h _ _

theorem start_gone_of_ne (s : DisplayServer) (h : B ≠ A) : (s.start A).gone B = s.gone B :=
  Function.update_of_ne h _ _

theorem start_body_of_ne (s : DisplayServer) (h : B ≠ A) : (s.start A).body B = s.body B :=
  Function.update_of_ne h _ _

end DisplayServer

theorem ServerInv.start (h : ServerInv s l) (hA : s.building A = false)
    (hserial : (s.channel A).serial + 1 < 2 ^ 64) : ServerInv (s.start A) l := by
  have hnew : ((s.start A).channel A).serial = (s.channel A).serial + 1 := by
    rw [DisplayServer.start_channel_self]
    exact Nat.mod_eq_of_lt hserial
  have hle (B : Channels) : (s.channel B).serial ≤ ((s.start A).channel B).serial := by
    by_cases hB : B = A
    · subst hB
      rw [hnew]
      exact Nat.le_succ _
    · rw [s.start_channel_of_ne hB]
  have hnot (e : PoolEvent Channels (Nat × Nat)) (he : e ∈ s.log) : e.message ≠ (A, (s.channel A).serial + 1) := by
    intro hm
    have hlast := h.last e he
    rw [hm] at hlast
    exact absurd hlast (Nat.not_succ_le_self _)
  refine ⟨fun B => ?_, h.legal, fun e he => (h.last e he).trans (hle _), fun B n hn hle' hb => ?_, fun B hb => ?_,
    h.size_fits, h.accounted, h.fresh, fun p hp => ?_, fun B hb => ?_⟩
  · by_cases hB : B = A
    · subst hB
      rw [s.start_channel_self]
      exact h.id_eq B
    · rw [s.start_channel_of_ne hB]
      exact h.id_eq B
  · by_cases hB : B = A
    · subst hB
      rw [hnew] at hle' hb
      have hlt : n ≤ (s.channel B).serial := by
        by_contra hgt
        have hb := hb (by omega)
        rw [s.start_building_self] at hb
        exact absurd hb nofun
      exact h.sent B n hn hlt fun _ => hA
    · rw [s.start_channel_of_ne hB] at hle' hb
      rw [s.start_building_of_ne hB] at hb
      exact h.sent B n hn hle' hb
  · by_cases hB : B = A
    · subst hB
      rw [DisplayServer.message, hnew]
      refine ⟨Nat.succ_ne_zero _, ?_⟩
      rintro ⟨waits, hmem⟩
      exact hnot _ hmem rfl
    · rw [s.start_building_of_ne hB] at hb
      rw [DisplayServer.message, s.start_channel_of_ne hB]
      exact h.unsent B hb
  · obtain ⟨hauthor, hlive, huses, hsync⟩ := h.logged p hp
    exact ⟨hauthor, hlive, huses, fun B => (hsync B).trans (hle B)⟩
  · by_cases hB : B = A
    · subst hB
      have hid : ((s.start B).channel B).id = B := by
        rw [s.start_channel_self]
        exact h.id_eq B
      rw [s.start_gone_self, s.start_body_self]
      refine ⟨List.nodup_nil, fun x => ?_, ?_, nofun, List.nodup_nil, fun x => ?_⟩
      · rw [hid, hnew]
        exact iff_of_false List.not_mem_nil fun hmem => hnot _ hmem rfl
      · rw [s.start_channel_self]
        rfl
      · rw [hid, hnew]
        exact iff_of_false List.not_mem_nil fun hmem => hnot _ hmem rfl
    · rw [s.start_building_of_ne hB] at hb
      rw [s.start_channel_of_ne hB, s.start_gone_of_ne hB, s.start_body_of_ne hB]
      exact h.making B hb

/-- Where only events of the message that the channel is making are new, the messages of the other channels are
not concerned. -/
theorem ServerInv.making_of_ne (h : ServerInv s l) (hs : s.log <:+ log') (hlegal : Legal log')
    (hnew : ∀ e ∈ log', e ∈ s.log ∨ e.message = s.message A) (hB : B ≠ A) (hb : s.building B = true) :
    Making log' (s.channel B) (s.gone B) (s.body B) := by
  have hother : ∀ e ∈ log', e.message = ((s.channel B).id, (s.channel B).serial) → e ∈ s.log := by
    intro e he hm
    refine (hnew e he).resolve_right fun hm' => hB ?_
    rw [h.id_eq] at hm
    exact congrArg Prod.fst (hm.symm.trans hm')
  exact (h.making B hb).mono hs hlegal (fun x hx => hother _ hx rfl) fun x hx => hother _ hx rfl

theorem ServerInv.hit (h : ServerInv s l) (hA : s.building A = true) (id : Nat) (image : Option CachedImage) :
    ∃ l', ServerInv (s.hit A id image) l' := by
  rw [DisplayServer.hit]
  cases hp : s.cache.table.find bitsCache id with
  | none => exact ⟨l, h⟩
  | some p =>
    obtain ⟨hpl, hid⟩ := h.accounted.wellformed.holds.find_mem hp
    obtain ⟨l', hperm, hholds⟩ := h.accounted.wellformed.holds.touch hpl
    have hid : (s.cache.table.item p).id = id := hid
    subst hid
    have hitem := h.logged p hpl
    set item := s.cache.table.item p with hitemEq
    set e : PoolEvent Channels (Nat × Nat) := .hit (s.message A) (p, item.id) with he
    have hsuffix : s.log <:+ e :: s.log := List.suffix_cons e s.log
    have hlegal : Legal (e :: s.log) := legal_cons.mpr ⟨⟨h.isOpen hA, hitem.author, hitem.live⟩, h.legal⟩
    have hnotAdd (m x) (hmem : .add m x ∈ e :: s.log) : .add m x ∈ s.log :=
      (List.mem_cons.mp hmem).resolve_left (by intro heq; subst e; cases heq)
    have hnotEvict (m x) (hmem : .evict m x ∈ e :: s.log) : .evict m x ∈ s.log :=
      (List.mem_cons.mp hmem).resolve_left (by intro heq; subst e; cases heq)
    have huses (m : Channels × Nat) (x : Nat × Nat) (hu : Uses (e :: s.log) m x) :
        m = s.message A ∧ x = (p, item.id) ∨ Uses s.log m x := by
      obtain hu | hu := hu
      · exact .inr (.inl (hnotAdd m x hu))
      · obtain hu | hu := List.mem_cons.mp hu
        · exact .inl (PoolEvent.hit.inj hu)
        · exact .inr (.inr hu)
    have hcache : (s.cache.hit item.id (s.channel A)).2 = { s.cache.setSync (s.channel A) with
        table := (s.cache.table.touch p).modify p { item with
          sync := Function.update item.sync (s.channel A).id (s.channel A).serial } } := by
      rw [PixmapCache.hit, hp]
    dsimp only
    rw [hcache]
    refine ⟨l', h.id_eq, hlegal, fun e' he' => ?_, fun B n hn hle hb => (h.sent B n hn hle hb).mono hsuffix,
      fun B hb => ⟨(h.unsent B hb).1, fun hsent => (h.unsent B hb).2 (hsent.of_cons (by rintro _ ⟨⟩))⟩, h.size_fits,
      h.accounted.modify hperm hholds rfl p { item with
        sync := Function.update item.sync (s.channel A).id (s.channel A).serial } rfl rfl _, fun m x hu => ?_, fun q hq => ?_, fun B hb => ?_⟩
    · obtain rfl | he' := List.mem_cons.mp he'
      · exact le_rfl
      · exact h.last e' he'
    · obtain ⟨-, rfl⟩ | hu := huses m x hu
      · exact h.accounted.wellformed.holds.lt_next p hpl
      · exact h.fresh m x hu
    · have hq := hperm.mem_iff.mp hq
      dsimp only
      by_cases hqp : q = p
      · subst hqp
        rw [LruTable.modify_item_self]
        refine ⟨hitem.author.imp fun m hm => hsuffix.subset hm, fun m hm => hitem.live m (hnotEvict m _ hm),
          fun m hu => ?_, fun B => ?_⟩
        · obtain ⟨rfl, -⟩ | hu := huses m _ hu
          · change _ ≤ Function.update item.sync (s.channel A).id _ A
            rw [h.id_eq, Function.update_self]
            exact le_rfl
          · have hle := hitem.uses_le m hu
            change _ ≤ Function.update item.sync (s.channel A).id _ m.1
            rw [h.id_eq]
            by_cases hm : m.1 = A
            · rw [hm, Function.update_self]
              rw [hm] at hle
              exact hle.trans (hitem.sync_le A)
            · rwa [Function.update_of_ne hm]
        · change Function.update item.sync (s.channel A).id _ B ≤ _
          rw [h.id_eq]
          by_cases hB : B = A
          · rw [hB, Function.update_self]
          · rw [Function.update_of_ne hB]
            exact hitem.sync_le B
      · rw [LruTable.modify_item_of_ne hqp]
        have hother := h.logged q hq
        refine hother.mono hsuffix (fun m hm => hother.live m (hnotEvict m _ hm)) fun m hu => ?_
        refine (huses m _ hu).resolve_left ?_
        rintro ⟨-, heq⟩
        exact hqp (Prod.mk.inj heq).1
    · by_cases hB : B = A
      · subst hB
        dsimp only
        rw [Function.update_self]
        refine ((h.making B hb).mono hsuffix hlegal (hnotEvict _) (hnotAdd _)).of_adds ?_
        rw [adds_append]
        cases image <;> exact List.append_nil _
      · dsimp only
        rw [Function.update_of_ne hB]
        refine h.making_of_ne hsuffix hlegal (fun e' he' => ?_) hB hb
        obtain rfl | he' := List.mem_cons.mp he'
        · exact .inr rfl
        · exact .inl he'

theorem ServerInv.setLossy (h : ServerInv s l) (id : Nat) (lossy : Int) : ServerInv (s.setLossy id lossy) l := by
  rw [DisplayServer.setLossy, PixmapCache.setLossy]
  cases hp : s.cache.table.find bitsCache id with
  | none => exact h
  | some p =>
    refine ⟨h.id_eq, h.legal, h.last, h.sent, h.unsent, h.size_fits,
      h.accounted.modify (.refl l) h.accounted.wellformed.holds rfl p { s.cache.table.item p with lossy := lossy }
        rfl rfl s.cache.sync, h.fresh, fun q hq => ?_, h.making⟩
    have hitem := h.logged q hq
    dsimp only
    by_cases hqp : q = p
    · subst hqp
      rw [LruTable.modify_item_self]
      exact ⟨hitem.author, hitem.live, hitem.uses_le, hitem.sync_le⟩
    · rw [LruTable.modify_item_of_ne hqp]
      exact hitem

theorem ServerInv.evict_fresh (h : ServerInv s l) {m : Channels × Nat} {x : Nat × Nat} (he : .evict m x ∈ s.log) :
    x.1 < s.cache.table.next := by
  obtain ⟨old, hs⟩ := exists_suffix he
  obtain ⟨-, ⟨a, ha⟩, -⟩ := h.legal _ _ hs
  exact h.fresh a x (.inl ((old_suffix hs).subset ha))

/-- The evicted items as the log has them. -/
theorem ServerInv.evicted_logged (h : ServerInv s l) {l' gone : List Nat} {p : Nat}
    (hl : l = l' ++ gone.reverse) (hp : p ∈ gone) :
    Logged s.log (fun A => (s.channel A).serial) p (s.cache.table.item p) :=
  h.logged p (hl ▸ List.mem_append_right _ (List.mem_reverse.mpr hp))

/-- An item that the message itself has used is not evicted by it. -/
theorem Logged.unused {serial : Channels → Nat} {p : Nat} {item : NewCacheItem} (h : Logged log serial p item)
    (hne : item.sync A ≠ serial A) : ¬ Uses log (A, serial A) (p, item.id) := fun hu =>
  hne (le_antisymm (h.sync_le A) (h.uses_le _ hu))

theorem ServerInv.added_making (h : ServerInv s l) (hA : s.building A = true) {c' : PixmapCache}
    {new : NewCacheItem} {ok : Bool} {l' gone : List Nat} {id : Nat} {lossy : Int}
    (hadded : PixmapCache.Added s.cache (s.channel A) new l c' ch' ok l' gone)
    (hgone : s.cache.evicted c' = gone.map fun p => (p, (s.cache.table.item p).id))
    (hlegal : Legal (s.added A c' ch' ok id lossy).log) :
    Making (s.added A c' ch' ok id lossy).log ch' (s.gone A ++ s.cache.evicted c')
      (s.body A ++ cond ok [.cacheMe (s.cache.table.next, id) (lossy ≠ 0)] []) := by
  have hm := h.making A hA
  have hs : s.log <:+ (s.added A c' ch' ok id lossy).log := evictThenAdd_suffix _ _ _ _ _
  have hmsg : (ch'.id, ch'.serial) = s.message A := by
    rw [hadded.released.channel_eq.1, hadded.released.channel_eq.2, h.id_eq, DisplayServer.message]
  have hmsg' : ((s.channel A).id, (s.channel A).serial) = s.message A := by rw [h.id_eq, DisplayServer.message]
  have hmemGone := hm.gone_mem
  have hmemAdds := hm.adds_mem
  rw [hmsg'] at hmemGone hmemAdds
  have hlogged (p : Nat) (hp : p ∈ gone) := h.evicted_logged hadded.list_eq hp
  have hnodup : gone.Nodup := by
    have hl := h.accounted.wellformed.holds.nodup
    rw [hadded.list_eq] at hl
    exact List.nodup_reverse.mp (List.nodup_append.mp hl).2.1
  refine ⟨?_, fun x => ?_, ?_, fun x hx m hu => ?_, ?_, fun x => ?_⟩
  · rw [hgone]
    refine List.nodup_append'.mpr ⟨hm.gone_nodup, hnodup.map fun p q he => (Prod.mk.inj he).1, fun x hx hx' => ?_⟩
    obtain ⟨p, hp, rfl⟩ := List.mem_map.mp hx'
    exact (hlogged p hp).live _ ((hmemGone _).mp hx)
  · rw [hmsg, List.mem_append, hmemGone, DisplayServer.added, mem_evictThenAdd]
    refine or_congr_right ?_
    constructor
    · exact fun hx => .inl ⟨x, hx, rfl⟩
    · rintro (⟨y, hy, he⟩ | ⟨-, he⟩)
      · exact (PoolEvent.evict.inj he).2 ▸ hy
      · exact absurd he (by intro h; cases h)
  · rw [List.map_append, hm.res_eq, hgone, List.map_map]
    exact hadded.released.res_eq.symm
  · obtain hx | hx := List.mem_append.mp hx
    · obtain ⟨old, hold⟩ := exists_suffix ((hmemGone x).mp hx)
      have hu := (hlegal.uses_of_evict (hold.trans hs) hu).mono (old_suffix hold)
      exact (hm.covers x hx m hu).trans (hadded.released.le_sync _)
    · rw [hgone] at hx
      obtain ⟨p, hp, rfl⟩ := List.mem_map.mp hx
      obtain hu | ⟨-, -, he⟩ := uses_evictThenAdd.mp hu
      · exact ((hlogged p hp).uses_le m hu).trans (hadded.released.item_le p hp _)
      · have hlt := h.accounted.wellformed.holds.lt_next p
          (hadded.list_eq ▸ List.mem_append_right _ (List.mem_reverse.mpr hp))
        exact absurd (Prod.mk.inj he).1 (Nat.ne_of_lt hlt)
  · rw [adds_append]
    cases ok with
    | true =>
      refine List.nodup_append_comm.mp (List.nodup_cons.mpr ⟨fun hx => ?_, hm.adds_nodup⟩)
      exact Nat.lt_irrefl _ (h.fresh _ _ (.inl ((hmemAdds _).mp hx)))
    | false => exact (List.append_nil (adds (s.body A))).symm ▸ hm.adds_nodup
  · rw [hmsg, adds_append, List.mem_append, hmemAdds, DisplayServer.added, mem_evictThenAdd]
    refine or_congr_right ?_
    cases ok with
    | true =>
      constructor
      · exact fun hx => .inr ⟨rfl, by rw [List.mem_singleton.mp hx]⟩
      · rintro (⟨_, -, he⟩ | ⟨-, he⟩)
        · exact absurd he (by intro h; cases h)
        · exact List.mem_singleton.mpr (PoolEvent.add.inj he).2
    | false =>
      constructor
      · exact fun hx => absurd hx List.not_mem_nil
      · rintro (⟨_, -, he⟩ | ⟨he, -⟩) <;> exact absurd he (by intro h; cases h)

/-- Whatever is added, the items that are evicted are not those of the message itself. -/
theorem ServerInv.add (h : ServerInv s l) (hA : s.building A = true) (id : Nat) {size : Nat}
    (hsize : 0 < size ∧ size < 2 ^ 32) (lossy : Int) :
    ∃ s' l', s.add A id size lossy = some s' ∧ ServerInv s' l' := by
  obtain ⟨c', ch', ok, l', gone, hadd, hadded⟩ := h.accounted.add_eq h.size_fits id hsize lossy (s.channel A)
  have hlt := h.accounted.wellformed.holds.lt_next
  have hgone := hadded.evicted_eq hlt
  have hnodup := h.accounted.wellformed.holds.nodup
  have hl := hadded.list_eq
  have hlogged (p : Nat) (hp : p ∈ gone) := h.evicted_logged hl hp
  rw [hl] at hnodup
  obtain ⟨-, hnodupGone, hdisjoint⟩ := List.nodup_append'.mp hnodup
  have hserial (B : Channels) : (Function.update s.channel A ch' B).serial = (s.channel B).serial := by
    by_cases hB : B = A
    · rw [hB, Function.update_self]
      exact hadded.released.channel_eq.2
    · rw [Function.update_of_ne hB]
  have hmem (x : Nat × Nat) (hx : x ∈ s.cache.evicted c') : ∃ p ∈ gone, x = (p, (s.cache.table.item p).id) := by
    rw [hgone] at hx
    obtain ⟨p, hp, rfl⟩ := List.mem_map.mp hx
    exact ⟨p, hp, rfl⟩
  have hlegal : Legal (s.added A c' ch' ok id lossy).log := by
    refine h.legal.evictThenAdd (h.isOpen hA) ?_ (fun x hx => ?_) (fun x hx => ?_) (fun x hx => ?_)
      (fun m => ⟨fun hu => Nat.lt_irrefl _ (h.fresh m _ hu), fun he => Nat.lt_irrefl _ (h.evict_fresh he)⟩)
      (fun hx => ?_) ok
    · rw [hgone]
      exact (List.nodup_reverse.mp hnodupGone).map fun p q he => (Prod.mk.inj he).1
    · obtain ⟨p, hp, rfl⟩ := hmem x hx
      exact (hlogged p hp).author
    · obtain ⟨p, hp, rfl⟩ := hmem x hx
      exact (hlogged p hp).live
    · obtain ⟨p, hp, rfl⟩ := hmem x hx
      have hne := hadded.unused p hp
      rw [h.id_eq] at hne
      exact (hlogged p hp).unused hne
    · obtain ⟨p, hp, he⟩ := hmem _ hx
      have hlt' := hlt p (hl ▸ List.mem_append_right _ (List.mem_reverse.mpr hp))
      exact absurd (Prod.mk.inj he).1.symm (Nat.ne_of_lt hlt')
  have hs : s.log <:+ (s.added A c' ch' ok id lossy).log := evictThenAdd_suffix _ _ _ _ _
  have hsent (m : Channels × Nat) (hm : Sent (s.added A c' ch' ok id lossy).log m) : Sent s.log m :=
    sent_evictThenAdd.mp hm
  have hnew (e) (he : e ∈ (s.added A c' ch' ok id lossy).log) : e ∈ s.log ∨ e.message = s.message A := by
    obtain he | ⟨_, -, rfl⟩ | ⟨-, rfl⟩ := mem_evictThenAdd.mp he
    · exact .inl he
    · exact .inr rfl
    · exact .inr rfl
  refine ⟨s.added A c' ch' ok id lossy, cond ok (s.cache.table.next :: l') l', by rw [DisplayServer.add, hadd],
    fun B => ?_, hlegal, fun e he => ?_, fun B n hn hle hb => ?_, fun B hb => ?_, ?_, hadded.accounted,
    fun m x hu => ?_, fun q hq => ?_, fun B hb => ?_⟩
  · change (Function.update s.channel A ch' B).id = B
    by_cases hB : B = A
    · rw [hB, Function.update_self, hadded.released.channel_eq.1]
      exact h.id_eq A
    · rw [Function.update_of_ne hB]
      exact h.id_eq B
  · refine le_of_le_of_eq ?_ (hserial e.message.1).symm
    obtain he | he := hnew e he
    · exact h.last e he
    · rw [he]
      exact le_rfl
  · rw [DisplayServer.added] at hle hb
    rw [hserial B] at hle hb
    exact (h.sent B n hn hle hb).mono hs
  · rw [DisplayServer.message, DisplayServer.added, hserial B]
    exact ⟨(h.unsent B hb).1, fun hm => (h.unsent B hb).2 (hsent _ hm)⟩
  · change PixmapCache.SizeFits c'.size
    rw [hadded.size_eq]
    exact h.size_fits
  · change x.1 < c'.table.next
    rw [hadded.next_eq]
    obtain hu | ⟨-, -, rfl⟩ := uses_evictThenAdd.mp hu
    · exact (h.fresh m x hu).trans (Nat.lt_succ_self _)
    · exact Nat.lt_succ_self _
  · change Logged _ (fun B => (Function.update s.channel A ch' B).serial) q (c'.table.item q)
    rw [funext hserial]
    have hqcase : ok = true ∧ q = s.cache.table.next ∨ q ∈ l' := by
      cases ok with
      | true => exact (List.mem_cons.mp hq).imp_left fun he => ⟨rfl, he⟩
      | false => exact .inr hq
    obtain ⟨hok, rfl⟩ | hql := hqcase
    · rw [hadded.new_eq hok]
      have hitemSync : (PixmapCache.newItem id size lossy (s.channel A)).sync =
          Function.update (fun _ => 0) A (s.channel A).serial := by rw [PixmapCache.newItem, h.id_eq]
      refine ⟨⟨s.message A, mem_evictThenAdd.mpr (.inr (.inr ⟨hok, rfl⟩))⟩, fun m hm => ?_, fun m hu => ?_,
        fun B => ?_⟩
      · obtain he | ⟨x, hx, he⟩ | ⟨-, he⟩ := mem_evictThenAdd.mp hm
        · exact Nat.lt_irrefl _ (h.evict_fresh he)
        · obtain ⟨p, hp, rfl⟩ := hmem x hx
          have hlt' := hlt p (hl ▸ List.mem_append_right _ (List.mem_reverse.mpr hp))
          exact absurd (Prod.mk.inj (PoolEvent.evict.inj he).2).1.symm (Nat.ne_of_lt hlt')
        · exact absurd he (by intro h; cases h)
      · rw [hitemSync]
        obtain hu | ⟨-, rfl, -⟩ := uses_evictThenAdd.mp hu
        · exact absurd (h.fresh m _ hu) (Nat.lt_irrefl _)
        · change (s.channel A).serial ≤ Function.update (fun _ => 0) A (s.channel A).serial A
          rw [Function.update_self]
      · rw [hitemSync]
        by_cases hB : B = A
        · rw [hB, Function.update_self]
        · rw [Function.update_of_ne hB]
          exact Nat.zero_le _
    · have hq' : q ∈ l := hl ▸ List.mem_append_left _ hql
      have hne : q ≠ s.cache.table.next := Nat.ne_of_lt (hlt q hq')
      rw [hadded.item_eq q hne]
      refine (h.logged q hq').mono hs (fun m hm => ?_) fun m hu => ?_
      · obtain he | ⟨x, hx, he⟩ | ⟨-, he⟩ := mem_evictThenAdd.mp hm
        · exact (h.logged q hq').live m he
        · obtain ⟨p, hp, rfl⟩ := hmem x hx
          obtain rfl := (Prod.mk.inj (PoolEvent.evict.inj he).2).1
          exact hdisjoint hql (List.mem_reverse.mpr hp)
        · exact absurd he (by intro h; cases h)
      · obtain hu | ⟨-, -, he⟩ := uses_evictThenAdd.mp hu
        · exact hu
        · exact absurd (Prod.mk.inj he).1 hne
  · by_cases hB : B = A
    · subst hB
      have hmaking := h.added_making hb hadded hgone hlegal
      change Making _ (Function.update s.channel B ch' B) (Function.update s.gone B _ B)
        (Function.update s.body B _ B)
      rw [Function.update_self, Function.update_self, Function.update_self]
      exact hmaking
    · change Making _ (Function.update s.channel A ch' B) (Function.update s.gone A _ B)
        (Function.update s.body A _ B)
      rw [Function.update_of_ne hB, Function.update_of_ne hB, Function.update_of_ne hB]
      exact h.making_of_ne hs hlegal hnew hB hb

theorem mem_waitList {w : Channels × Nat} :
    w ∈ ch.waitList ↔ w.1 ≠ ch.id ∧ ch.freeListSync w.1 ≠ 0 ∧ w.2 = ch.freeListSync w.1 := by
  rw [DisplayChannel.waitList, List.mem_filterMap]
  constructor
  · rintro ⟨i, -, hi⟩
    split at hi
    · next hne =>
      cases hi
      exact ⟨hne.1, hne.2, rfl⟩
    · exact absurd hi nofun
  · rintro ⟨hne, hsync, heq⟩
    refine ⟨w.1, List.mem_finRange w.1, ?_⟩
    rw [if_pos ⟨hne, hsync⟩, ← heq]

theorem beginSendMessage_waits_subset (ch : DisplayChannel) (gone : List (Nat × Nat)) (body : List ImageUse) :
    (ch.beginSendMessage gone body).waits ⊆ ch.waitList := by
  rw [DisplayChannel.beginSendMessage]
  split
  · exact List.nil_subset _
  · exact List.Subset.refl _

/-- Where the message evicts an item, it waits for what the list says. -/
theorem beginSendMessage_waits {x : Nat × Nat} (hres : gone.map Prod.snd = ch.freeListRes) (hx : x ∈ gone) :
    (ch.beginSendMessage gone body).waits = ch.waitList := by
  rw [DisplayChannel.beginSendMessage, if_neg]
  rw [← hres]
  exact List.ne_nil_of_mem (List.mem_map_of_mem hx)

theorem DisplayServer.send_building_of_ne (s : DisplayServer) (h : B ≠ A) :
    (s.send A).building B = s.building B := Function.update_of_ne h _ _

theorem DisplayServer.building_of_send (hb : (s.send A).building B = true) : B ≠ A ∧ s.building B = true := by
  have hB : B ≠ A := by
    rintro rfl
    have hself : (s.send B).building B = false := Function.update_self _ _ _
    exact absurd (hself.symm.trans hb) (by intro h; cases h)
  rw [s.send_building_of_ne hB] at hb
  exact ⟨hB, hb⟩

theorem ServerInv.send (h : ServerInv s l) (hA : s.building A = true) : ServerInv (s.send A) l := by
  have hm := h.making A hA
  have hmsg : ((s.channel A).id, (s.channel A).serial) = s.message A := by rw [h.id_eq, DisplayServer.message]
  have hmemGone := hm.gone_mem
  rw [hmsg] at hmemGone
  have hlegal : Legal (s.send A).log := by
    refine legal_cons.mpr ⟨⟨h.isOpen hA, fun x hx m hu hne => ?_⟩, h.legal⟩
    have hx := (hmemGone x).mpr hx
    have hle := hm.covers x hx m hu
    have hne_zero : m.2 ≠ 0 := by
      obtain hu | hu := hu <;> obtain ⟨old, hs⟩ := exists_suffix hu <;> exact (h.legal _ _ hs).1.ne_zero
    refine ⟨(m.1, (s.channel A).freeListSync m.1), ?_, rfl, hle⟩
    rw [DisplayServer.outgoing, beginSendMessage_waits hm.res_eq hx, mem_waitList, h.id_eq]
    exact ⟨hne, fun hz => hne_zero (Nat.le_zero.mp (hz ▸ hle)), rfl⟩
  have hs : s.log <:+ (s.send A).log := List.suffix_cons _ _
  have hself : Sent (s.send A).log (s.message A) := ⟨_, List.mem_cons_self⟩
  refine ⟨h.id_eq, hlegal, fun e he => ?_, fun B n hn hle hb => ?_, fun B hb => ?_, h.size_fits, h.accounted,
    fun m x hu => ?_, fun p hp => ?_, fun B hb => ?_⟩
  · obtain rfl | he := List.mem_cons.mp he
    · exact le_rfl
    · exact h.last e he
  · by_cases hn' : B = A ∧ n = (s.channel A).serial
    · obtain ⟨rfl, rfl⟩ := hn'
      exact hself
    · refine (h.sent B n hn hle fun heq => ?_).mono hs
      have hB : B ≠ A := fun hB => hn' ⟨hB, hB ▸ heq⟩
      exact s.send_building_of_ne hB ▸ hb heq
  · obtain ⟨hB, hb⟩ := DisplayServer.building_of_send hb
    refine ⟨(h.unsent B hb).1, fun hsent => (h.unsent B hb).2 (hsent.of_cons fun waits he => hB ?_)⟩
    exact (congrArg Prod.fst (PoolEvent.send.inj he).1).symm
  · exact h.fresh m x (hu.of_cons nofun nofun)
  · have hlogged := h.logged p hp
    exact hlogged.mono hs (fun m hm => hlogged.live m ((List.mem_cons.mp hm).resolve_left nofun)) fun m hu =>
      hu.of_cons nofun nofun
  · obtain ⟨hB, hb⟩ := DisplayServer.building_of_send hb
    refine h.making_of_ne hs hlegal (fun e he => ?_) hB hb
    obtain rfl | he := List.mem_cons.mp he
    · exact .inr rfl
    · exact .inl he

end Colama.Spice

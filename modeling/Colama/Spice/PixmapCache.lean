import Mathlib.Tactic
import Colama.Lib.LruTable

namespace Colama.Spice

open Lib

def maxCacheClients : Nat := 4

def bitsCacheHashShift : Nat := 10

def bitsCacheHashSize : Nat := 1 <<< bitsCacheHashShift

def bitsCacheHashKey (id : Nat) : Nat := id &&& (bitsCacheHashSize - 1)

def toInt64 (n : Int) : Int := n.bmod (2 ^ 64)

def toInt32 (n : Int) : Int := n.bmod (2 ^ 32)

/-- The serials in `sync` are those of the last message of each channel that uses the item. -/
structure NewCacheItem where
  id : Nat
  sync : Fin maxCacheClients → Nat
  size : Nat
  lossy : Int

def bitsCache : Keyed NewCacheItem := ⟨NewCacheItem.id, bitsCacheHashKey⟩

/-- The items, `hash_table` and `lru` are in `table`. What was freed is kept, the last first. -/
structure PixmapCache where
  table : LruTable NewCacheItem
  available : Int
  size : Int
  items : Int
  freezed : Bool
  freezedHead : Option (Option Nat)
  freezedTail : Option (Option Nat)
  generation : Nat
  generationInitiator : Fin maxCacheClients × Nat
  sync : Fin maxCacheClients → Nat
  freed : List Nat

/-- What the cache uses of a channel: its number, the serial of the message that is being built, and the
items that this message releases. -/
structure DisplayChannel where
  id : Fin maxCacheClients
  serial : Nat
  pixmapCacheGeneration : Nat
  pendingPixmapsSync : Bool
  pixmapSyncItems : Nat
  freeListSync : Fin maxCacheClients → Nat
  freeListRes : List Nat

def displayChannelPushRelease (ch : DisplayChannel) (id : Nat) (syncData : Fin maxCacheClients → Nat) :
    DisplayChannel :=
  { ch with
    freeListSync := fun i => max (ch.freeListSync i) (syncData i)
    freeListRes := ch.freeListRes ++ [id] }

namespace PixmapCache

def setSync (c : PixmapCache) (ch : DisplayChannel) : PixmapCache :=
  { c with sync := Function.update c.sync ch.id ch.serial }

/-- `pixmap_cache_hit`, with the lossiness of the item that is found. -/
def hit (c : PixmapCache) (id : Nat) (ch : DisplayChannel) : Option Int × PixmapCache :=
  match c.table.find bitsCache id with
  | none => (none, c)
  | some p =>
    let item := c.table.item p
    (some item.lossy, { c.setSync ch with
      table := (c.table.touch p).modify p { item with
        sync := Function.update item.sync ch.id ch.serial } })

/-- `pixmap_cache_set_lossy`. -/
def setLossy (c : PixmapCache) (id : Nat) (lossy : Int) : Bool × PixmapCache :=
  match c.table.find bitsCache id with
  | none => (false, c)
  | some p => (true, { c with table := c.table.modify p { c.table.item p with lossy := lossy } })

def unlink (c : PixmapCache) (ch : DisplayChannel) (p : Nat) : PixmapCache :=
  { c.setSync ch with
    table := c.table.unlink bitsCache p
    items := toInt32 (c.items - 1)
    available := toInt64 (c.available + (c.table.item p).size)
    freed := p :: c.freed }

/-- The item at the tail of the ring is released by the message of the channel. `none` is a failed assertion. -/
def evict (c : PixmapCache) (ch : DisplayChannel) (tail : Nat) : Option (PixmapCache × DisplayChannel) :=
  let item := c.table.item tail
  if tail ∈ c.table.hashTable (bitsCacheHashKey item.id) then
    some (c.unlink ch tail, displayChannelPushRelease ch item.id item.sync)
  else none

/-- The loop of `pixmap_cache_add`; it ends with false where nothing may be evicted. -/
def evictLoop : Nat → PixmapCache → DisplayChannel → Option (PixmapCache × DisplayChannel × Bool)
  | 0, _, _ => none
  | n + 1, c, ch =>
    if 0 ≤ c.available then some (c, ch, true)
    else
      match c.table.links.getTail none with
      | some (some tail) =>
        if (c.table.item tail).sync ch.id = ch.serial then some (c, ch, false)
        else do
          let (c, ch) ← c.evict ch tail
          evictLoop n c ch
      | _ => some (c, ch, false)

def newItem (id size : Nat) (lossy : Int) (ch : DisplayChannel) : NewCacheItem where
  id := id
  sync := Function.update (fun _ => 0) ch.id ch.serial
  size := size
  lossy := lossy

/-- The new item `p` is linked. -/
def link (c : PixmapCache) (p id size : Nat) (lossy : Int) (ch : DisplayChannel) : PixmapCache :=
  { c.setSync ch with
    items := toInt32 (c.items + 1)
    table := c.table.link bitsCache p (newItem id size lossy ch) }

/-- What `pixmap_cache_add` does on a channel of another generation. -/
def requestSync (ch : DisplayChannel) : DisplayChannel :=
  if ch.pendingPixmapsSync then ch
  else { ch with pixmapSyncItems := ch.pixmapSyncItems + 1, pendingPixmapsSync := true }

/-- `pixmap_cache_add`. At most all items that were ever made are evicted. -/
def add (c : PixmapCache) (id size : Nat) (lossy : Int) (ch : DisplayChannel) :
    Option (PixmapCache × DisplayChannel × Bool) :=
  if size = 0 then none
  else
    let p := c.table.next
    let c := { c with table := c.table.alloc }
    if c.generation ≠ ch.pixmapCacheGeneration then
      some ({ c with freed := p :: c.freed }, requestSync ch, false)
    else
      match evictLoop (c.table.next + 1) { c with available := toInt64 (c.available - size) } ch with
      | none => none
      | some (c, ch, false) =>
        some ({ c with available := toInt64 (c.available + size), freed := p :: c.freed }, ch, false)
      | some (c, ch, true) => some (c.link p id size lossy ch, ch, true)

/-- The loop of `__pixmap_cache_clear`. -/
def clearLoop : Nat → PixmapCache → Option PixmapCache
  | 0, _ => none
  | n + 1, c =>
    match c.table.links.getHead none with
    | some (some p) =>
      clearLoop n { c with
        table := { c.table with links := c.table.links.remove (some p) }
        freed := p :: c.freed }
    | _ => some c

def unfreeze (c : PixmapCache) : PixmapCache :=
  if c.freezed then
    { c with
      table := { c.table with links := c.table.links.attach none c.freezedHead c.freezedTail }
      freezed := false }
  else c

/-- `__pixmap_cache_clear`. -/
def clear (c : PixmapCache) : Option PixmapCache := do
  let c ← clearLoop (c.table.next + 1) c.unfreeze
  return { c with table := { c.table with hashTable := fun _ => [] }, available := c.size, items := 0 }

/-- The last messages of the other channels that used the cache. -/
def waitList (c : PixmapCache) (ch : DisplayChannel) : List (Fin maxCacheClients × Nat) :=
  (List.finRange maxCacheClients).filterMap fun i =>
    if c.sync i ≠ 0 ∧ i ≠ ch.id then some (i, c.sync i) else none

def startGeneration (c : PixmapCache) (ch : DisplayChannel) : PixmapCache :=
  { c.setSync ch with
    generation := (c.generation + 1) % 2 ^ 32
    generationInitiator := (ch.id, ch.serial) }

/-- `pixmap_cache_reset`, with the list of messages to wait for. -/
def reset (c : PixmapCache) (ch : DisplayChannel) :
    Option (PixmapCache × DisplayChannel × List (Fin maxCacheClients × Nat)) := do
  let c ← c.clear
  let c := c.startGeneration ch
  return (c, { ch with pixmapCacheGeneration := c.generation }, c.waitList ch)

/-- `pixmap_cache_freeze`. -/
def freeze (c : PixmapCache) : Bool × PixmapCache :=
  if c.freezed then (false, c)
  else
    (true, { c with
      freezedHead := c.table.links.next none
      freezedTail := c.table.links.prev none
      table := { c.table with links := c.table.links.init none, hashTable := fun _ => [] }
      available := -1
      freezed := true })

/-- `pixmap_cache_destroy`. -/
def destroy (c : PixmapCache) : Option PixmapCache := c.clear

/-- `red_create_pixmap_cache`; the memory is cleared. -/
def create (size : Int) : PixmapCache where
  table := {
    item := fun _ => ⟨0, fun _ => 0, 0, 0⟩
    next := 0
    links := Links.init ⟨fun _ => none, fun _ => none⟩ none
    hashTable := fun _ => [] }
  available := size
  size := size
  items := 0
  freezed := false
  freezedHead := none
  freezedTail := none
  generation := 0
  generationInitiator := (⟨0, by decide⟩, 0)
  sync := fun _ => 0
  freed := []

end PixmapCache

end Colama.Spice

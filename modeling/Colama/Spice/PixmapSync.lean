import Mathlib.Tactic
import Colama.Lib.SharedPool
import Colama.Spice.ClientCache

namespace Colama.Spice

open Lib

structure SharedItem where
  id : Nat
  refs : Nat
  lossy : Bool
  deriving DecidableEq

/-- The first item of a chain with this identity is replaced, or taken out. -/
def updateItem (id : Nat) (f : SharedItem → Option SharedItem) : List SharedItem → List SharedItem
  | [] => []
  | item :: chain =>
    if item.id = id then (f item).toList ++ chain else item :: updateItem id f chain

/-- `SharedCache` of the client: the chains of its hash table. -/
structure SharedCache where
  hash : Nat → List SharedItem

def pixmapCacheTreat : Treat := ⟨"pixmap", 1024⟩

namespace SharedCache

variable (T : Treat)

def empty : SharedCache := ⟨fun _ => []⟩

def find (c : SharedCache) (id : Nat) : Option SharedItem :=
  (c.hash (Cache.key T id)).find? fun item => item.id = id

def setChain (c : SharedCache) (k : Nat) (chain : List SharedItem) : SharedCache :=
  ⟨Function.update c.hash k chain⟩

def update (c : SharedCache) (id : Nat) (f : SharedItem → Option SharedItem) : SharedCache :=
  c.setChain (Cache.key T id) (updateItem id f (c.hash (Cache.key T id)))

def add (c : SharedCache) (id : Nat) (lossy : Bool) : SharedCache :=
  match c.find T id with
  | some _ => c.update T id fun item => some { item with refs := item.refs + 1 }
  | none => c.setChain (Cache.key T id) (c.hash (Cache.key T id) ++ [⟨id, 1, lossy⟩])

def remove (c : SharedCache) (id : Nat) : Except String SharedCache :=
  match c.find T id with
  | some _ => pure (c.update T id fun item =>
      if item.refs - 1 = 0 then none else some { item with refs := item.refs - 1 })
  | none => throw s!"{T.name} id {id}, not found"

/-- `get` waits while there is no such item. -/
def get (c : SharedCache) (id : Nat) : Option SharedItem := c.find T id

/-- `get_lossless` waits while the item is lossy, too. -/
def getLossless (c : SharedCache) (id : Nat) : Option SharedItem :=
  (c.find T id).filter fun item => !item.lossy

/-- `replace` waits while there is no such item. -/
def replace (c : SharedCache) (id : Nat) (lossy : Bool) : Option SharedCache :=
  (c.find T id).map fun _ => c.update T id fun item => some { item with lossy := lossy }

end SharedCache

/-- How the image of a message that is in the cache is sent. -/
inductive CachedImage
  | fromCache
  | fromCacheLossless
  | cacheReplaceMe (lossy : Bool)
  deriving DecidableEq

/-- What a message says about the cache. An item of the server is its address and its identity; the client is only
sent the identity. -/
inductive ImageUse
  | cacheMe (item : Nat × Nat) (lossy : Bool)
  | cached (id : Nat) (image : CachedImage)
  deriving DecidableEq

/-- The client's canvas meets the image; `none` while it waits. -/
def SharedCache.use (T : Treat) (c : SharedCache) : ImageUse → Option SharedCache
  | .cacheMe item lossy => some (c.add T item.2 lossy)
  | .cached id .fromCache => (c.get T id).map fun _ => c
  | .cached id .fromCacheLossless => (c.getLossless T id).map fun _ => c
  | .cached id (.cacheReplaceMe lossy) => c.replace T id lossy

abbrev Channels := Fin maxCacheClients

/-- A message with its two submessages. `gone` are the items that `res` names. -/
structure Message where
  serial : Nat
  waits : List (Channels × Nat)
  res : List Nat
  gone : List (Nat × Nat)
  body : List ImageUse
  deriving DecidableEq

namespace DisplayChannel

/-- `red_display_reset_send_data`. -/
def resetSendData (ch : DisplayChannel) : DisplayChannel :=
  { ch with serial := (ch.serial + 1) % 2 ^ 64, freeListSync := fun _ => 0, freeListRes := [] }

def waitList (ch : DisplayChannel) : List (Channels × Nat) :=
  (List.finRange maxCacheClients).filterMap fun i =>
    if i ≠ ch.id ∧ ch.freeListSync i ≠ 0 then some (i, ch.freeListSync i) else none

/-- `display_begin_send_message`. -/
def beginSendMessage (ch : DisplayChannel) (gone : List (Nat × Nat)) (body : List ImageUse) : Message :=
  if ch.freeListRes = [] then ⟨ch.serial, [], [], gone, body⟩
  else ⟨ch.serial, ch.waitList, ch.freeListRes, gone, body⟩

def create (A : Channels) : DisplayChannel := ⟨A, 0, 0, false, 0, fun _ => 0, []⟩

end DisplayChannel

/-- The items that an addition has evicted from the cache `c`, in this order. -/
def PixmapCache.evicted (c c' : PixmapCache) : List (Nat × Nat) :=
  ((c'.freed.take (c'.freed.length - c.freed.length)).filter (· ≠ c.table.next)).reverse.map fun p =>
    (p, (c.table.item p).id)

/-- Display channels that share a cache. `building` says whether the channel is making a message, `gone` what the
message has evicted and `body` what it is going to say; the events are recorded in `log`. -/
structure DisplayServer where
  cache : PixmapCache
  channel : Channels → DisplayChannel
  building : Channels → Bool
  gone : Channels → List (Nat × Nat)
  body : Channels → List ImageUse
  log : PoolLog Channels (Nat × Nat)

namespace DisplayServer

def create (size : Int) : DisplayServer where
  cache := PixmapCache.create size
  channel := DisplayChannel.create
  building _ := false
  gone _ := []
  body _ := []
  log := []

/-- The message that the channel is making. -/
def message (s : DisplayServer) (A : Channels) : Channels × Nat := (A, (s.channel A).serial)

def start (s : DisplayServer) (A : Channels) : DisplayServer :=
  { s with
    channel := Function.update s.channel A (s.channel A).resetSendData
    building := Function.update s.building A true
    gone := Function.update s.gone A []
    body := Function.update s.body A [] }

/-- A hit whose image is not sent comes from `is_bitmap_lossy`. -/
def hit (s : DisplayServer) (A : Channels) (id : Nat) (image : Option CachedImage) : DisplayServer :=
  match s.cache.table.find bitsCache id with
  | none => s
  | some p =>
    { s with
      cache := (s.cache.hit id (s.channel A)).2
      body := Function.update s.body A (s.body A ++ (image.map (.cached id)).toList)
      log := .hit (s.message A) (p, id) :: s.log }

def setLossy (s : DisplayServer) (id : Nat) (lossy : Int) : DisplayServer :=
  { s with cache := (s.cache.setLossy id lossy).2 }

/-- After `pixmap_cache_add`, which may evict items even where it does not add the new one. -/
def added (s : DisplayServer) (A : Channels) (cache : PixmapCache) (ch : DisplayChannel) (ok : Bool) (id : Nat)
    (lossy : Int) : DisplayServer :=
  let new := (s.cache.table.next, id)
  let gone := s.cache.evicted cache
  { s with
    cache := cache
    channel := Function.update s.channel A ch
    gone := Function.update s.gone A (s.gone A ++ gone)
    body := Function.update s.body A (s.body A ++ cond ok [.cacheMe new (lossy ≠ 0)] [])
    log := evictThenAdd s.log (s.message A) gone ok new }

def add (s : DisplayServer) (A : Channels) (id size : Nat) (lossy : Int) : Option DisplayServer :=
  match s.cache.add id size lossy (s.channel A) with
  | none => none
  | some (cache, ch, ok) => some (s.added A cache ch ok id lossy)

def outgoing (s : DisplayServer) (A : Channels) : Message :=
  (s.channel A).beginSendMessage (s.gone A) (s.body A)

def send (s : DisplayServer) (A : Channels) : DisplayServer :=
  { s with
    building := Function.update s.building A false
    log := .send (s.message A) (s.outgoing A).waits :: s.log }

end DisplayServer

/-- The client: for each channel the messages that it has not dealt with, whether the waits of the first of them are
over, and the serial of the last message before that; and the cache. -/
structure DisplayClient where
  queue : Channels → List Message
  entered : Channels → Bool
  sync : Channels → Nat
  cache : SharedCache

namespace DisplayClient

def create : DisplayClient where
  queue _ := []
  entered _ := false
  sync _ := 0
  cache := SharedCache.empty

def receive (c : DisplayClient) (A : Channels) (message : Message) : DisplayClient :=
  { c with queue := Function.update c.queue A (c.queue A ++ [message]) }

/-- `wait_for_channels`; the waits of the message are over. -/
def enter (c : DisplayClient) (A : Channels) : Option DisplayClient :=
  match c.queue A with
  | [] => none
  | message :: _ =>
    if c.entered A = false ∧ ∀ w ∈ message.waits, w.2 ≤ c.sync w.1 then
      some { c with entered := Function.update c.entered A true }
    else none

def setHead (c : DisplayClient) (A : Channels) (message : Message) (cache : SharedCache) : DisplayClient :=
  { c with queue := Function.update c.queue A (message :: (c.queue A).tail), cache := cache }

/-- `handle_inval_list`, one of its resources. There is no step where `remove` throws. -/
def inval (c : DisplayClient) (A : Channels) : Option DisplayClient :=
  match c.entered A, c.queue A with
  | true, ⟨serial, waits, id :: res, gone, body⟩ :: _ =>
    match c.cache.remove pixmapCacheTreat id with
    | .ok cache => some (c.setHead A ⟨serial, waits, res, gone.tail, body⟩ cache)
    | .error _ => none
  | _, _ => none

def use (c : DisplayClient) (A : Channels) : Option DisplayClient :=
  match c.entered A, c.queue A with
  | true, ⟨serial, waits, [], gone, image :: body⟩ :: _ =>
    match c.cache.use pixmapCacheTreat image with
    | some cache => some (c.setHead A ⟨serial, waits, [], gone, body⟩ cache)
    | none => none
  | _, _ => none

/-- `on_message_complition`. -/
def finish (c : DisplayClient) (A : Channels) : Option DisplayClient :=
  match c.entered A, c.queue A with
  | true, ⟨serial, _, [], _, []⟩ :: queue =>
    some { c with
      queue := Function.update c.queue A queue
      entered := Function.update c.entered A false
      sync := Function.update c.sync A serial }
  | _, _ => none

end DisplayClient

structure DisplaySession where
  server : DisplayServer
  client : DisplayClient

inductive DisplayOp
  | start (A : Channels)
  | hit (A : Channels) (id : Nat) (image : Option CachedImage)
  | setLossy (A : Channels) (id : Nat) (lossy : Int)
  | add (A : Channels) (id size : Nat) (lossy : Int)
  | send (A : Channels)
  | enter (A : Channels)
  | inval (A : Channels)
  | use (A : Channels)
  | finish (A : Channels)

namespace DisplaySession

def create (size : Int) : DisplaySession := ⟨DisplayServer.create size, DisplayClient.create⟩

def withServer (s : DisplaySession) (server : DisplayServer) : DisplaySession := { s with server := server }

def withClient (s : DisplaySession) (client : DisplayClient) : DisplaySession := { s with client := client }

/-- A channel makes one message after the other, and the client deals with them in that order. -/
def perform (s : DisplaySession) : DisplayOp → Option DisplaySession
  | .start A => if s.server.building A = false then some (s.withServer (s.server.start A)) else none
  | .hit A id image => if s.server.building A = true then some (s.withServer (s.server.hit A id image)) else none
  | .setLossy A id lossy =>
    if s.server.building A = true then some (s.withServer (s.server.setLossy id lossy)) else none
  | .add A id size lossy =>
    if s.server.building A = true then (s.server.add A id size lossy).map s.withServer else none
  | .send A =>
    if s.server.building A = true then some ⟨s.server.send A, s.client.receive A (s.server.outgoing A)⟩ else none
  | .enter A => (s.client.enter A).map s.withClient
  | .inval A => (s.client.inval A).map s.withClient
  | .use A => (s.client.use A).map s.withClient
  | .finish A => (s.client.finish A).map s.withClient

def Step (s : DisplaySession) (op : DisplayOp) (s' : DisplaySession) : Prop := s.perform op = some s'

end DisplaySession

end Colama.Spice

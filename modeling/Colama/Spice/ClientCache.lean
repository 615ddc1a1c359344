import Mathlib.Tactic
import Colama.Spice.PixmapCache

namespace Colama.Spice

open Lib

def clientCursorCacheSize : Int := 256

def clientPaletteCacheSize : Int := 128

/-- `CURSOR_CACHE_HASH_KEY` and `PALETTE_CACHE_HASH_KEY`. -/
def cacheHashKey (id : Nat) : Nat := id &&& ((1 <<< 8) - 1)

structure CacheItem where
  id : Nat
  size : Nat

def clientCache : Keyed CacheItem := ⟨CacheItem.id, cacheHashKey⟩

/-- What the cursor cache and the palette cache use of their channel. The items that are cached are in
`table`; `pipe` has the identities of the `INVAL_ONE` items that wait at the tail of the pipe, the next to
be sent first. -/
structure CacheChannel where
  table : LruTable CacheItem
  available : Int
  items : Nat
  pipe : List Nat

namespace CacheChannel

def find (ch : CacheChannel) (id : Nat) : Bool × CacheChannel :=
  match ch.table.find clientCache id with
  | none => (false, ch)
  | some p => (true, { ch with table := ch.table.touch p })

def unlink (ch : CacheChannel) (p : Nat) : CacheChannel where
  table := ch.table.unlink clientCache p
  items := (ch.items + (2 ^ 32 - 1)) % 2 ^ 32
  available := toInt64 (ch.available + (ch.table.item p).size)
  pipe := (ch.table.item p).id :: ch.pipe

/-- The item goes from the cache to the tail of the pipe. `none` is a failed assertion. -/
def remove (ch : CacheChannel) (p : Nat) : Option CacheChannel :=
  if p ∈ ch.table.hashTable (cacheHashKey (ch.table.item p).id) then some (ch.unlink p) else none

/-- The loop of `add`; it ends with false where nothing is left to remove. -/
def addLoop : Nat → CacheChannel → Option (CacheChannel × Bool)
  | 0, _ => none
  | n + 1, ch =>
    if 0 ≤ ch.available then some (ch, true)
    else
      match ch.table.links.getTail none with
      | some (some tail) => do
        let ch ← ch.remove tail
        addLoop n ch
      | _ => some (ch, false)

def link (ch : CacheChannel) (p id size : Nat) : CacheChannel :=
  { ch with
    items := (ch.items + 1) % 2 ^ 32
    table := ch.table.link clientCache p ⟨id, size⟩ }

/-- At most all items that were ever made are removed. -/
def add (ch : CacheChannel) (id size : Nat) : Option (CacheChannel × Bool) :=
  let p := ch.table.next
  let ch := { ch with table := ch.table.alloc, available := toInt64 (ch.available - size) }
  match addLoop (ch.table.next + 1) ch with
  | none => none
  | some (ch, false) => some ({ ch with available := toInt64 (ch.available + size) }, false)
  | some (ch, true) => some (ch.link p id size, true)

def reset (ch : CacheChannel) (size : Int) : CacheChannel :=
  { ch with
    table := { ch.table with hashTable := fun _ => [], links := ch.table.links.init none }
    available := size
    items := 0 }

/-- A channel that was just made; the memory is cleared. -/
def create (size : Int) : CacheChannel where
  table := {
    item := fun _ => ⟨0, 0⟩
    next := 0
    links := Links.init ⟨fun _ => none, fun _ => none⟩ none
    hashTable := fun _ => [] }
  available := size
  items := 0
  pipe := []

end CacheChannel

/-- The parts of the messages that concern the cache of the client, in the order they have there. -/
inductive CacheCommand (δ : Type*)
  | add (id : Nat) (data : δ)
  | get (id : Nat)
  | inval (id : Nat)
  | invalAll

/-- A cursor or palette that a message needs. -/
structure CacheRequest (δ : Type*) where
  id : Nat
  size : Nat
  data : δ

/-- How `fill_cursor` and `fill_palette` use the cache: the client is told to take the data from its cache, or
to put the data into it, or neither. -/
def CacheChannel.fill {δ : Type*} (ch : CacheChannel) (r : CacheRequest δ) :
    Option (CacheChannel × List (CacheCommand δ)) :=
  match ch.find r.id with
  | (true, ch) => some (ch, [.get r.id])
  | (false, ch) =>
    match ch.add r.id r.size with
    | none => none
    | some (ch, true) => some (ch, [.add r.id r.data])
    | some (ch, false) => some (ch, [])

/-- The parameters of the template `Cache` on the client. -/
structure Treat where
  name : String
  hashSize : Nat

def cursorCacheTreat : Treat := ⟨"cursor", 1024⟩

def paletteCacheTreat : Treat := ⟨"palette", 1024⟩

/-- `Cache` of the client: the chains of its hash table. -/
structure Cache (δ : Type*) where
  hash : Nat → List (Nat × δ)

namespace Cache

variable {δ : Type*} (T : Treat)

def key (id : Nat) : Nat := id % 2 ^ 32 % T.hashSize

def empty : Cache δ := ⟨fun _ => []⟩

def setChain (c : Cache δ) (k : Nat) (chain : List (Nat × δ)) : Cache δ := ⟨Function.update c.hash k chain⟩

def add (c : Cache δ) (id : Nat) (data : δ) : Except String (Cache δ) :=
  let chain := c.hash (key T id)
  if id ∈ chain.map Prod.fst then throw s!"{T.name} id {id}, double insert"
  else pure (c.setChain (key T id) (chain ++ [(id, data)]))

def get (c : Cache δ) (id : Nat) : Except String δ :=
  match (c.hash (key T id)).find? fun item => item.1 = id with
  | none => throw s!"{T.name} id {id}, not found"
  | some item => pure item.2

def remove (c : Cache δ) (id : Nat) : Except String (Cache δ) :=
  let chain := c.hash (key T id)
  if id ∈ chain.map Prod.fst then
    pure (c.setChain (key T id) (chain.eraseP fun item => item.1 = id))
  else throw s!"{T.name} id {id}, not found"

/-- The client meets a command. -/
def handle (c : Cache δ) : CacheCommand δ → Except String (Cache δ)
  | .add id data => c.add T id data
  | .get id => do
    let _ ← c.get T id
    return c
  | .inval id => c.remove T id
  | .invalAll => pure empty

def run (c : Cache δ) (commands : List (CacheCommand δ)) : Except String (Cache δ) :=
  commands.foldlM (handle T) c

end Cache

/-- A channel, the total size of its cache and what was sent to the client since it connected. -/
structure CacheSession (δ : Type*) where
  channel : CacheChannel
  size : Int
  wire : List (CacheCommand δ)

inductive CacheOp (δ : Type*)
  | message (requests : List (CacheRequest δ))
  | sendInval
  | reset (size : Int)

namespace CacheSession

variable {δ : Type*}

def create (size : Int) : CacheSession δ := ⟨CacheChannel.create size, size, []⟩

def fill (s : CacheSession δ) (r : CacheRequest δ) : Option (CacheSession δ) :=
  match s.channel.fill r with
  | none => none
  | some (channel, commands) => some { s with channel := channel, wire := s.wire ++ commands }

/-- A message is filled whatever waits in the pipe: `red_pipe_add_drawable_to_tail` puts a drawable before the
items that are there. What empties the cache is always put at the head of the pipe. -/
def perform (s : CacheSession δ) : CacheOp δ → Option (CacheSession δ)
  | .message requests => requests.foldlM fill s
  | .sendInval =>
    match s.channel.pipe with
    | [] => none
    | id :: pipe =>
      some { s with channel := { s.channel with pipe := pipe }, wire := s.wire ++ [.inval id] }
  | .reset size =>
    if s.channel.pipe = [] then some ⟨s.channel.reset size, size, s.wire ++ [.invalAll]⟩ else none

/-- The steps of a session that the server does not abort. -/
def Step (s : CacheSession δ) (op : CacheOp δ) (s' : CacheSession δ) : Prop := s.perform op = some s'

end CacheSession

end Colama.Spice

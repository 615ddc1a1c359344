import Colama.Lib.Runs

namespace Colama.Ganglia

open Lib

/-- The bytes of a `datum_t`. -/
abbrev Datum := List UInt8

structure Bucket (V : Type*) where
  key : Datum
  val : V

/-- A hash table. Each node holds a chain of buckets. -/
structure Hash (V : Type*) where
  node : List (List (Bucket V))

/-- `primes`, in which 1913 is written 1193. -/
def primes : List Nat :=
  [2, 3, 5, 7, 11, 13, 17, 19, 23, 29, 31, 37, 41, 43, 47, 53, 59, 61, 67, 71, 73, 79, 83, 89, 97, 101, 103, 107, 109,
    113, 127, 131, 137, 139, 149, 151, 157, 163, 167, 173, 179, 181, 191, 193, 197, 199, 211, 223, 227, 229, 233, 239,
    241, 251, 257, 263, 269, 271, 277, 281, 283, 293, 307, 311, 313, 317, 331, 337, 347, 349, 353, 359, 367, 373, 379,
    383, 389, 397, 401, 409, 419, 421, 431, 433, 439, 443, 449, 457, 461, 463, 467, 479, 487, 491, 499, 503, 509, 521,
    523, 541, 547, 557, 563, 569, 571, 577, 587, 593, 599, 601, 607, 613, 617, 619, 631, 641, 643, 647, 653, 659, 661,
    673, 677, 683, 691, 701, 709, 719, 727, 733, 739, 743, 751, 757, 761, 769, 773, 787, 797, 809, 811, 821, 823, 827,
    829, 839, 853, 857, 859, 863, 877, 881, 883, 887, 907, 911, 919, 929, 937, 941, 947, 953, 967, 971, 977, 983, 991,
    997, 1009, 1013, 1019, 1021, 1031, 1033, 1039, 1049, 1051, 1061, 1063, 1069, 1087, 1091, 1093, 1097, 1103, 1109,
    1117, 1123, 1129, 1151, 1153, 1163, 1171, 1181, 1187, 1193, 1201, 1213, 1217, 1223, 1229, 1231, 1237, 1249, 1259,
    1277, 1279, 1283, 1289, 1291, 1297, 1301, 1303, 1307, 1319, 1321, 1327, 1361, 1367, 1373, 1381, 1399, 1409, 1423,
    1427, 1429, 1433, 1439, 1447, 1451, 1453, 1459, 1471, 1481, 1483, 1487, 1489, 1493, 1499, 1511, 1523, 1531, 1543,
    1549, 1553, 1559, 1567, 1571, 1579, 1583, 1597, 1601, 1607, 1609, 1613, 1619, 1621, 1627, 1637, 1657, 1663, 1667,
    1669, 1693, 1697, 1699, 1709, 1721, 1723, 1733, 1741, 1747, 1753, 1759, 1777, 1783, 1787, 1789, 1801, 1811, 1823,
    1831, 1847, 1861, 1867, 1871, 1873, 1877, 1879, 1889, 1901, 1907, 1193, 1931, 1933, 1949, 1951, 1973, 1979, 1987,
    1993, 1997, 1999, 2003, 2011, 2017, 2027, 2029, 2039, 2053, 2063, 2069, 2081, 2083, 2087, 2089, 2099, 2111, 2113,
    2129, 2131, 2137, 2141, 2143, 2153, 2161, 2179, 2203, 2207, 2213, 2221, 2237, 2239, 2243, 2251, 2267, 2269, 2273,
    2281, 2287, 2293, 2297, 2309, 2311, 2333, 2339, 2341, 2347, 2351, 2357, 2371, 2377, 2381, 2383, 2389, 2393, 2399]

def hashPrime (size : Nat) : Nat := (primes.find? fun p => decide (p > size)).getD (primes.getLast (by decide))

namespace Hash

variable {V : Type*}

def create (size : Nat) : Hash V where
  node := List.replicate (hashPrime size) []

def size (h : Hash V) : Nat := h.node.length

def chain (h : Hash V) (i : Nat) : List (Bucket V) := h.node.getD i []

def setChain (h : Hash V) (i : Nat) (c : List (Bucket V)) : Hash V where
  node := h.node.set i c

end Hash

/-- `hashval` in a table of that size. -/
def hashval (size : Nat) (key : Datum) : Nat :=
  match key with
  | [] => 0
  | b :: _ => key.foldl (fun hash b => (hash * 32 + b.toNat) % size) b.toNat

def strncmp : (n : Nat) → Datum → Datum → Int
  | n + 1, a :: as, b :: bs => if a ≠ b then a.toNat - b.toNat else if a = 0 then 0 else strncmp n as bs
  | _, _, _ => 0

def memcmp : (n : Nat) → Datum → Datum → Int
  | n + 1, a :: as, b :: bs => if a ≠ b then a.toNat - b.toNat else memcmp n as bs
  | _, _, _ => 0

/-- `realloc`, which gives no memory for no bytes. -/
def realloc (data : Datum) (size : Nat) : Option Datum :=
  if size = 0 then none else some (data.take size ++ List.replicate (size - data.length) 0)

/-- The new value of a bucket is copied over the old one. -/
def overwrite (old val : Datum) : Option Datum := do
  let data ← if old.length ≠ val.length then realloc old val.length else some old
  some (val ++ data.drop val.length)

/-- The loop of `hash_insert` over the buckets of a chain. There is no result if none of them has the key, and none in
the result if there is no memory for the value. -/
def replaceVal (key val : Datum) : List (Bucket Datum) → Option (Option (List (Bucket Datum)))
  | [] => none
  | b :: bs =>
    if b.key.length = key.length ∧ strncmp key.length b.key key = 0 then
      some ((overwrite b.val val).map fun v => { b with val := v } :: bs)
    else (replaceVal key val bs).map (Option.map (b :: ·))

/-- The loop of `hash_delete`, with the value of the bucket that it takes out. -/
def removeKey {V : Type*} (key : Datum) : List (Bucket V) → Option (V × List (Bucket V))
  | [] => none
  | b :: bs =>
    if b.key.length = key.length ∧ strncmp key.length key b.key = 0 then some (b.val, bs)
    else (removeKey key bs).map fun (v, bs) => (v, b :: bs)

/-- The walk over a chain, with what is made of each value; it ends at a bucket that stops it. -/
def walkChain {V A : Type*} (func : Datum → V → A → Option (V × A × Bool)) :
    List (Bucket V) → A → Option (List (Bucket V) × A × Bool)
  | [], arg => some ([], arg, false)
  | b :: bs, arg => do
    let (v, arg, stop) ← func b.key b.val arg
    if stop then some ({ b with val := v } :: bs, arg, true)
    else do
      let (bs, arg, stop) ← walkChain func bs arg
      some ({ b with val := v } :: bs, arg, stop)

def walkNodes {V A : Type*} (func : Datum → V → A → Option (V × A × Bool)) :
    List (List (Bucket V)) → A → Option (List (List (Bucket V)) × A × Bool)
  | [], arg => some ([], arg, false)
  | c :: cs, arg => do
    let (c, arg, stop) ← walkChain func c arg
    if stop then some (c :: cs, arg, true)
    else do
      let (cs, arg, stop) ← walkNodes func cs arg
      some (c :: cs, arg, stop)

namespace Hash

variable {V A : Type*}

/-- `hash_insert`, with the value that it returns. -/
def insert (h : Hash Datum) (key val : Datum) : Option (Datum × Hash Datum) :=
  let i := hashval h.size key
  match replaceVal key val (h.chain i) with
  | some result => result.map fun c => (val, h.setChain i c)
  | none => some (val, h.setChain i (⟨key, val⟩ :: h.chain i))

def lookup (h : Hash V) (key : Datum) : Option V :=
  ((h.chain (hashval h.size key)).find? fun b =>
    decide (key.length = b.key.length ∧ memcmp key.length key b.key = 0)).map Bucket.val

def delete (h : Hash V) (key : Datum) : Option V × Hash V :=
  let i := hashval h.size key
  match removeKey key (h.chain i) with
  | some (v, c) => (some v, h.setChain i c)
  | none => (none, h)

/-- `hash_walkfrom`, with the table in which the values are what the walk has made of them. -/
def walkfrom (h : Hash V) (start : Nat) (func : Datum → V → A → Option (V × A × Bool)) (arg : A) :
    Option (Hash V × A × Bool) := do
  let (cs, arg, stop) ← walkNodes func (h.node.drop start) arg
  some (⟨h.node.take start ++ cs⟩, arg, stop)

def foreach (h : Hash V) (func : Datum → V → A → Option (V × A × Bool)) (arg : A) : Option (Hash V × A × Bool) :=
  h.walkfrom 0 func arg

/-- What a walk that does not stop visits. -/
def visited (h : Hash V) : Option (List (Datum × V)) :=
  (h.foreach (fun key v seen => some (v, seen ++ [(key, v)], false)) []).map fun (_, seen, _) => seen

end Hash

/-- The characters of a string. -/
structure CString where
  chars : List UInt8
  nonzero : ∀ c ∈ chars, c ≠ 0
  deriving DecidableEq

/-- A key that is the string, counted with its NUL. -/
def CString.key (s : CString) : Datum := s.chars ++ [0]

inductive HashCall
  | insert (key : CString) (val : Datum)
  | lookup (key : CString)
  | delete (key : CString)

/-- A call for the table. There is no result if there is no memory for a value. -/
def Hash.call (h : Hash Datum) : HashCall → Option (Option Datum × Hash Datum)
  | .insert key val => (h.insert key.key val).map fun (v, h) => (some v, h)
  | .lookup key => some (h.lookup key.key, h)
  | .delete key => some (h.delete key.key)

/-- What a call does to a finite map, and what it gives. -/
def HashCall.onMap (m : CString → Option Datum) : HashCall → Option Datum × (CString → Option Datum)
  | .insert key val => (some val, Function.update m key (some val))
  | .lookup key => (m key, m)
  | .delete key => (m key, Function.update m key none)

/-- A table and a map take a call. It fails if the table does not give what the map gives. -/
def hashStep (s : Hash Datum × (CString → Option Datum)) (call : HashCall) :
    Except Unit (Hash Datum × (CString → Option Datum)) :=
  match s.1.call call with
  | none => .error ()
  | some (answer, h) => if answer = (call.onMap s.2).1 then .ok (h, (call.onMap s.2).2) else .error ()

/-- Each pair is in the chain of its key and no key is there twice. -/
structure Hash.Placed {V : Type*} (h : Hash V) : Prop where
  size_pos : 0 < h.size
  key : ∀ i, ∀ b ∈ h.chain i, hashval h.size b.key = i ∧ ∃ s : CString, b.key = s.key
  nodup : ∀ i, ((h.chain i).map Bucket.key).Nodup

/-- A walk visits each pair of a map once. -/
def VisitsOnce (m : CString → Option Datum) (pairs : List (Datum × Datum)) : Prop :=
  (pairs.map Prod.fst).Nodup ∧ ∀ key val, (key, val) ∈ pairs ↔ ∃ s : CString, key = s.key ∧ m s = some val

/-- A table holds the pairs of a map. -/
structure Hash.Holds (h : Hash Datum) (m : CString → Option Datum) : Prop where
  placed : h.Placed
  lookup : ∀ s : CString, h.lookup s.key = m s
  visits : ∃ pairs, h.visited = some pairs ∧ VisitsOnce m pairs

/-- A value of no bytes does not replace one that has some. -/
def HashCall.Fits (m : CString → Option Datum) : HashCall → Prop
  | .insert key val => val = [] → m key = none ∨ m key = some []
  | _ => True

end Colama.Ganglia

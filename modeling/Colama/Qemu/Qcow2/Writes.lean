import Colama.Qemu.Qcow2.Image

namespace Colama.Qemu.Qcow2

/-- The value left in a signed variable of 32 bits. -/
def int32 (z : Int) : Int := z.bmod (2 ^ 32)

def uint32 (z : Int) : Nat := (z % 2 ^ 32).toNat

def uint64 (z : Int) : Nat := (z % 2 ^ 64).toNat

structure QCowL2Meta where
  offset : Nat
  /-- Counted in clusters of the file. -/
  clusterOffset : Nat
  nStart : Nat
  nbAvailable : Nat
  nbClusters : Nat
  dependsOn : Option Nat
  dependentRequests : List Nat
  deriving DecidableEq

/-- A request under way; `buf` holds its remaining sectors. -/
structure QCowAIOCB (α : Type*) where
  sectorNum : Nat
  buf : List α
  curNrSectors : Nat
  l2meta : QCowL2Meta

structure Request (α : Type*) where
  sectorNum : Nat
  data : List α

def QCowL2Meta.setup : QCowL2Meta := ⟨0, 0, 0, 0, 0, none, []⟩

def qcowAioSetup {α : Type*} (r : Request α) : QCowAIOCB α := ⟨r.sectorNum, r.data, 0, QCowL2Meta.setup⟩

/-- The image and its requests, numbered in the order they were started in. -/
structure Writes (α : Type*) where
  bs : BDRVQcowState α
  started : List (Request α)
  acb : Nat → QCowAIOCB α
  clusterAllocs : List Nat
  /-- The requests whose data write has been handed to the file and is not completed. -/
  inFlight : List Nat
  /-- The requests whose callback has been called, the last one first. -/
  callbacks : List Nat

section Counting

variable (entry : Nat → L2Entry)

/-- The entry that names the cluster of the file `i` clusters behind the one that `first` names, flags
included; only entries for whole clusters match. -/
def L2Entry.behind (first : L2Entry) (i : Nat) (e : L2Entry) : Bool :=
  match first with
  | .free => false
  | .standard copied c => e == .standard copied (c + i)
  | .compressed _ _ => i == 0 && e == first

/-- `count_contiguous_clusters` with no flag masked, on the entries from that of cluster `a` on. -/
def countContiguousClusters (a : Nat) : Nat → Nat → Nat
  | 0, _ => 0
  | nbClusters + 1, start =>
    if (entry a).behind start (entry (a + start)) then
      countContiguousClusters a nbClusters (start + 1) + 1
    else 0

def countContiguousFreeClusters : Nat → Nat → Nat
  | 0, _ => 0
  | nbClusters + 1, a =>
    if entry a = .free then countContiguousFreeClusters nbClusters (a + 1) + 1 else 0

/-- The loop for "how many available clusters ?", entered with `i` clusters counted. -/
@[grind] def countAvailable (a nbClusters : Nat) : Nat → Nat → Nat
  | 0, i => i
  | fuel + 1, i =>
    if i < nbClusters then
      let i := i + countContiguousClusters entry a (nbClusters - i) i
      if i ≥ nbClusters ∨ entry (a + i) ≠ .free then i
      else
        let i := i + countContiguousFreeClusters entry (nbClusters - i) (a + i)
        if i ≥ nbClusters then i
        else match entry (a + i) with
          | .standard true _ | .compressed _ _ => i
          | _ => countAvailable a nbClusters fuel i
    else i

end Counting

section Step

variable {α : Type*} (C : Image α)

/-- The `n_end` of a write from the given sector on: where it ends, counted from the start of its first
cluster, but no more than the buffer for encrypted data takes. -/
def Image.nEnd (x len : Nat) : Nat :=
  let nEnd := x % C.clusterSectors + len
  if C.cryptMethod then min nEnd (maxCryptClusters * C.clusterSectors) else nEnd

/-- `size_to_clusters` of the byte behind the last sector, as the unsigned count that is compared. -/
def nbClustersTo (nEnd : Nat) : Nat :=
  uint32 (int32 ((int32 (nEnd * 512) + (C.clusterSize - 1)) / 2 ^ C.clusterBits))

/-- The walk over `cluster_allocs`: the allocation to wait for, or the clusters that may be allocated. -/
def walkAllocs (acb : Nat → QCowAIOCB α) (offset : Nat) : List Nat → Nat → Nat ⊕ Nat
  | [], nbClusters => .inr nbClusters
  | old :: rest, nbClusters =>
    let m := (acb old).l2meta
    let endOffset := uint64 (offset + uint32 (nbClusters * C.clusterSize))
    let oldEndOffset := uint64 (m.offset + int32 (m.nbClusters * C.clusterSize))
    if endOffset < m.offset ∨ offset > oldEndOffset then walkAllocs acb offset rest nbClusters
    else
      let nbClusters := if offset < m.offset then (m.offset - offset) / C.clusterSize % 2 ^ 32 else 0
      if nbClusters = 0 then .inl old else walkAllocs acb offset rest nbClusters

/-- The sectors of the first cluster in front of the write are copied. -/
def copyHead (bs : BDRVQcowState α) (m : QCowL2Meta) : BDRVQcowState α :=
  if m.nStart = 0 then bs
  else copySectors C bs (m.offset / C.clusterSize * C.clusterSectors) m.clusterOffset 0 m.nStart

/-- The sectors of the last cluster behind the write are copied. -/
def copyTail (bs : BDRVQcowState α) (m : QCowL2Meta) : BDRVQcowState α :=
  let last := m.nbAvailable / C.clusterSectors
  let tail := m.nbAvailable % C.clusterSectors
  if tail = 0 then bs
  else copySectors C bs ((m.offset / C.clusterSize + last) * C.clusterSectors) (m.clusterOffset + last) tail
    C.clusterSectors

/-- `qcow2_alloc_cluster_link_l2`: the entries are replaced and the clusters that they named are freed. -/
def linkL2 (bs : BDRVQcowState α) (m : QCowL2Meta) : BDRVQcowState α :=
  if m.nbClusters = 0 then bs
  else
    let a := m.offset / C.clusterSize
    let bs := getClusterTable C (copyTail C (copyHead C bs m) m) a
    let old := ((List.range' a m.nbClusters).map (bs.entry C)).filter (· ≠ .free)
    old.foldl (freeAnyClusters C)
      { bs with
        l2 := fun b =>
          if a ≤ b ∧ b < a + m.nbClusters then .standard true (m.clusterOffset + (b - a)) else bs.l2 b }

namespace Writes

variable (w : Writes α)

def setAcb (id : Nat) (a : QCowAIOCB α) : Writes α := { w with acb := Function.update w.acb id a }

/-- `qcow2_alloc_cluster_offset` for the request's remaining sectors: none if it aborts, or if the number
of sectors comes out negative. -/
def allocClusterOffset (id nStart nEnd : Nat) : Option (Writes α) :=
  let acb := w.acb id
  let m := acb.l2meta
  let offset := acb.sectorNum * 512
  let a := offset / C.clusterSize
  let bs := getClusterTable C w.bs a
  let entry := bs.entry C
  let nbClusters := min (nbClustersTo C nEnd) (C.l2Size - a % C.l2Size)
  match entry a with
  | .standard true c =>
    let nbClusters := countContiguousClusters entry a nbClusters 0
    let nbAvailable := min (nbClusters * C.clusterSectors) nEnd
    if nbAvailable < nStart then none
    else
      some { w.setAcb id { acb with
        curNrSectors := nbAvailable - nStart
        l2meta := { m with
          clusterOffset := c, nbAvailable := nbAvailable, nbClusters := 0, dependsOn := none } } with bs := bs }
  | e =>
    let nbClusters := match e with
      | .compressed _ _ => 1
      | _ => nbClusters
    let nbClusters := countAvailable entry a nbClusters nbClusters 0
    match walkAllocs C w.acb offset w.clusterAllocs nbClusters with
    | .inl old =>
      some { w.setAcb id { acb with
        curNrSectors := 0
        l2meta := { m with nbClusters := 0, dependsOn := some old } } with bs := bs }
    | .inr nbClusters =>
      if nbClusters = 0 then none
      else
        let alloc := allocClusters C bs (uint32 (nbClusters * C.clusterSize))
        let nbAvailable := min (nbClusters * C.clusterSectors) nEnd
        some { w.setAcb id { acb with
          curNrSectors := nbAvailable - nStart
          l2meta := { m with
            offset := offset, clusterOffset := alloc.1, nStart := nStart, nbAvailable := nbAvailable
            nbClusters := nbClusters } } with
          bs := alloc.2
          clusterAllocs := id :: w.clusterAllocs }

/-- The end of a request: `common.cb`. -/
def callback (id : Nat) : Writes α := { w with callbacks := id :: w.callbacks }

/-- The request is put in front of those that wait for an allocation. -/
def park (old id : Nat) : Writes α :=
  w.setAcb old { w.acb old with
    l2meta := { (w.acb old).l2meta with dependentRequests := id :: (w.acb old).l2meta.dependentRequests } }

/-- The request waits for another one, or its data write is handed to the file. -/
def launch (id : Nat) : Writes α :=
  match (w.acb id).l2meta.nbClusters, (w.acb id).l2meta.dependsOn with
  | 0, some old => w.park old id
  | _, _ => { w with inFlight := id :: w.inFlight }

/-- What `qcow_aio_write_cb` does once it has left the finished part of the request behind. -/
def nextPart (id : Nat) : Option (Writes α) :=
  let acb := w.acb id
  if acb.buf = [] then some (w.callback id)
  else
    (w.allocClusterOffset C id (acb.sectorNum % C.clusterSectors) (C.nEnd acb.sectorNum acb.buf.length)).map
      fun w => w.launch id

/-- The finished part of the request is taken off it, and with it the requests that waited for it. -/
def advance (id : Nat) : Writes α :=
  let acb := w.acb id
  w.setAcb id { acb with
    sectorNum := acb.sectorNum + acb.curNrSectors
    buf := acb.buf.drop acb.curNrSectors
    l2meta := { acb.l2meta with dependentRequests := [] } }

/-- The allocation is linked and leaves `cluster_allocs`. -/
def finishAlloc (id : Nat) : Writes α :=
  let m := (w.acb id).l2meta
  { w with
    bs := linkL2 C w.bs m
    clusterAllocs := if m.nbClusters = 0 then w.clusterAllocs else w.clusterAllocs.erase id }

/-- `qcow_aio_write_cb`; `run_dependent_requests` calls it for the requests that waited. -/
def writeCb : Nat → Writes α → Nat → Option (Writes α)
  | 0, _, _ => none
  | fuel + 1, w, id => do
    let w := w.finishAlloc C id
    let w ← (w.acb id).l2meta.dependentRequests.foldlM (writeCb fuel) w
    (w.advance id).nextPart C id

/-- `qcow_aio_writev`. -/
def writev (r : Request α) : Option (Writes α) :=
  let id := w.started.length
  writeCb C (w.started.length + 2) { w.setAcb id (qcowAioSetup r) with started := w.started ++ [r] } id

/-- The data write of a request takes effect, and its callback runs. -/
def completeWrite (id : Nat) : Option (Writes α) :=
  if id ∈ w.inFlight then
    let acb := w.acb id
    let sector := acb.l2meta.clusterOffset * C.clusterSectors + acb.sectorNum % C.clusterSectors
    writeCb C (w.started.length + 2)
      { w with
        bs := writeSectors C w.bs sector acb.sectorNum (acb.buf.take acb.curNrSectors)
        inFlight := w.inFlight.erase id } id
  else none

end Writes

inductive Act (α : Type*) where
  | writev (r : Request α)
  | complete (id : Nat)

def Writes.step (w : Writes α) : Act α → Option (Writes α)
  | .writev r => w.writev C r
  | .complete id => w.completeWrite C id

end Step

/-- An open image with no request under way. -/
def Writes.idle {α : Type*} (bs : BDRVQcowState α) : Writes α :=
  ⟨bs, [], fun _ => ⟨0, [], 0, QCowL2Meta.setup⟩, [], [], []⟩

end Colama.Qemu.Qcow2

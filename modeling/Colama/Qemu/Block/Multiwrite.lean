import Mathlib.Data.List.Perm.Basic
import Mathlib.Order.Interval.Finset.Nat

namespace Colama.Qemu.Block

def IOV_MAX : Nat := 1024

/-- The buffers of a vector, one after the other. -/
abbrev QEMUIOVector := List (List UInt8)

def QEMUIOVector.size (qiov : QEMUIOVector) : Nat := qiov.flatten.length

def QEMUIOVector.niov (qiov : QEMUIOVector) : Nat := qiov.length

/-- The conversion to a 32-bit int. -/
def toInt (n : Nat) : Int := Int.bmod n (2 ^ 32)

structure BlockRequest where
  sector : Int
  nbSectors : Int
  qiov : QEMUIOVector

/-- The loop of `qemu_iovec_concat`, with `done` bytes copied. -/
def iovecConcatFrom (size : Nat) (dst : QEMUIOVector) (done : Nat) : QEMUIOVector → QEMUIOVector
  | [] => dst
  | iov :: src =>
    if done = size then dst
    else if done + iov.length > size then dst ++ [iov.take (size - done)]
    else iovecConcatFrom size (dst ++ [iov]) (done + iov.length) src

def iovecConcat (dst src : QEMUIOVector) (size : Nat) : QEMUIOVector := iovecConcatFrom size dst 0 src

def multiwriteReqCompare (req1 req2 : BlockRequest) : Int :=
  if req1.sector > req2.sector then 1
  else if req1.sector < req2.sector then -1
  else 0

/-- One turn of the loop of `multiwrite_merge`, with the requests before `outidx` in `out.1` and that
at `outidx` in `out.2`. -/
def multiwriteMergeStep (mergeRequests : Option (BlockRequest → BlockRequest → Bool))
    (out : List BlockRequest × BlockRequest) (req : BlockRequest) : List BlockRequest × BlockRequest :=
  let cur := out.2
  let oldreqLast := cur.sector + cur.nbSectors
  let merge := decide (req.sector ≤ oldreqLast)
  let merge := merge || mergeRequests.any fun drv => drv cur req
  let merge := merge && !decide (cur.qiov.niov + req.qiov.niov + 1 > IOV_MAX)
  if merge then
    let size := ((req.sector - cur.sector) * 512).toNat
    let qiov := iovecConcat [] cur.qiov size
    let qiov :=
      if req.sector > oldreqLast then qiov ++ [List.replicate ((req.sector - oldreqLast) * 512).toNat 0]
      else qiov
    let qiov := iovecConcat qiov req.qiov req.qiov.size
    (out.1, { sector := cur.sector, nbSectors := toInt (qiov.size >>> 9), qiov })
  else (out.1 ++ [cur], req)

/-- The requests left by `multiwrite_merge`, of the requests as `qsort` orders them. -/
def multiwriteMerge (mergeRequests : Option (BlockRequest → BlockRequest → Bool)) :
    List BlockRequest → List BlockRequest
  | [] => []
  | req :: reqs =>
    let out := reqs.foldl (multiwriteMergeStep mergeRequests) ([], req)
    out.1 ++ [out.2]

/-- An order in which `qsort`, which need not be stable, may leave the requests. -/
structure SortedBy (reqs sorted : List BlockRequest) : Prop where
  perm : sorted.Perm reqs
  sorted : sorted.Pairwise fun a b => multiwriteReqCompare a b ≤ 0

def BlockRequest.Covers (req : BlockRequest) (x : Int) : Prop :=
  req.sector ≤ x ∧ x < req.sector + req.nbSectors

/-- What the request writes to sector `x`. -/
def BlockRequest.sectorData (req : BlockRequest) (x : Int) : List UInt8 :=
  (req.qiov.flatten.drop ((x - req.sector) * 512).toNat).take 512

/-- The vector holds as many bytes as the sectors, whose number is an int. -/
structure BlockRequest.WellFormed (req : BlockRequest) : Prop where
  nonneg : 0 ≤ req.nbSectors
  int : req.nbSectors < 2 ^ 31
  size : (req.qiov.size : Int) = req.nbSectors * 512

/-- The same sectors are written, each with what a request that covers it has for it. -/
structure PreservesWrites (reqs left : List BlockRequest) : Prop where
  sectors : ∀ x, (∃ req ∈ left, req.Covers x) ↔ ∃ req ∈ reqs, req.Covers x
  data : ∀ req ∈ left, ∀ x, req.Covers x → ∃ orig ∈ reqs, orig.Covers x ∧ req.sectorData x = orig.sectorData x

/-- The last of the requests that start at or before sector `x`. -/
def lastStarting (sorted : List BlockRequest) (x : Int) : Option BlockRequest :=
  (sorted.filter fun req => decide (req.sector ≤ x)).getLast?

/-- Each sector that is to be written is covered by the last request that starts at or before it. -/
def LastCovers (sorted : List BlockRequest) : Prop :=
  ∀ x, (∃ req ∈ sorted, req.Covers x) → ∃ req, lastStarting sorted x = some req ∧ req.Covers x

/-- Some sector in each `2 ^ 31` consecutive ones is not written. -/
def NoLongRun (reqs : List BlockRequest) : Prop :=
  ∀ start : Int, ∃ x, start ≤ x ∧ x < start + 2 ^ 31 ∧ ∀ r ∈ reqs, ¬ r.Covers x

end Colama.Qemu.Block

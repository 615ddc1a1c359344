import Colama.Lib.Runs
import Colama.Ganglia.Cleanup

namespace Colama.Ganglia.Schedule

open Lib

/-- A `float`. The exponent of a finite one is any. -/
inductive Binary32
  | finite (mantissa exponent : ℤ) (mantissa_lt : |mantissa| < 2 ^ 24)
  | infinite (negative : Bool)
  | nan

/-- Whether the `float` is at most that number. -/
def Binary32.le : Binary32 → ℤ → Bool
  | .finite mantissa exponent _, d => decide ((mantissa : ℚ) * 2 ^ exponent ≤ d)
  | .infinite negative, _ => negative
  | .nan, _ => false

/-- Whether the `float` is at least zero. -/
def Binary32.nonneg : Binary32 → Bool
  | .finite mantissa _ _ => decide (0 ≤ mantissa)
  | .infinite negative => !negative
  | .nan => false

/-- To the nearest multiple of `2 ^ k`, and to an even one from between two. -/
def roundEven (n k : ℕ) : ℕ :=
  if 2 * (n % 2 ^ k) < 2 ^ k ∨ 2 * (n % 2 ^ k) = 2 ^ k ∧ n / 2 ^ k % 2 = 0 then n / 2 ^ k * 2 ^ k
  else (n / 2 ^ k + 1) * 2 ^ k

/-- An `int` as a `float`, which has 24 bits for it. -/
def toFloat (d : ℤ) : ℤ := d.sign * roundEven d.natAbs (d.natAbs.log2 - 23)

/-- `abs`, of an `int`. -/
def abs (d : ℤ) : ℤ := if d < 0 then (-d).bmod (2 ^ 32) else d

inductive ValueType
  | unknown
  | string
  | unsignedShort
  | short
  | unsignedInt
  | int
  deriving DecidableEq

/-- Of a `g_val_t`, the member for the type. -/
def GVal : ValueType → Type
  | .unknown => Unit
  | .string => String
  | .unsignedShort => UInt16
  | .short => Int16
  | .unsignedInt => UInt32
  | .int => Int32

structure MetricCallback where
  valueThreshold : Binary32
  type : ValueType
  now : GVal type
  last : GVal type
  metadataLastSent : ℤ

namespace MetricCallback

/-- What `abs` is given for the two values. -/
def difference : MetricCallback → Option ℤ
  | { type := .unknown, .. } | { type := .string, .. } => none
  | { type := .unsignedShort, now, last, .. } => some ((UInt16.toNat last : ℤ) - UInt16.toNat now)
  | { type := .short, now, last, .. } => some (Int16.toInt last - Int16.toInt now)
  | { type := .unsignedInt, now, last, .. } => some (((UInt32.toNat last : ℤ) - UInt32.toNat now).bmod (2 ^ 32))
  | { type := .int, now, last, .. } => some ((Int32.toInt last - Int32.toInt now).bmod (2 ^ 32))

/-- The value threshold is passed. -/
def passes (cb : MetricCallback) : Bool :=
  cb.valueThreshold.nonneg && cb.difference.any fun d => cb.valueThreshold.le (toFloat (abs d))

def collect (cb : MetricCallback) (value : (type : ValueType) → GVal type) : MetricCallback :=
  { cb with now := value cb.type, last := cb.now }

/-- The group of the metric is to be sent immediately. -/
def immediate (cb : MetricCallback) : Bool := cb.passes || decide (cb.metadataLastSent = 0)

end MetricCallback

/-- The metrics of a group are in the table of the callbacks, where groups may share them. -/
structure CollectionGroup where
  nextCollect : ℤ
  nextSend : ℤ
  collectEvery : Int32
  timeThreshold : Int32
  metricArray : List ℕ

structure State where
  allowExtraData : Bool
  sendMetadataInterval : ℤ
  callbacks : ℕ → MetricCallback
  groups : List CollectionGroup

/-- A call of `process_collection_groups`: the metrics whose metadata has been requested since the one before, and for
the place of a metric in a group what is collected and whether the metadata and the value can be sent. -/
structure Turn where
  now : ℤ
  now_pos : 0 < now
  requested : ℕ → Bool
  value : ℕ → ℕ → (type : ValueType) → GVal type
  metadataSent : ℕ → ℕ → Bool
  sent : ℕ → ℕ → Bool

/-- What a call does with a group, with the metrics as they were when they had been collected and with how the sending
of each went if the group was sent. -/
structure Visit where
  before : CollectionGroup
  collected : List MetricCallback
  after : CollectionGroup
  sent : Option (List Bool)

/-- The loop of `Ganglia_collection_group_collect`, from the metric at `j`. -/
def collectMetrics (value : ℕ → (type : ValueType) → GVal type) :
    ℕ → List ℕ → ℤ → (ℕ → MetricCallback) → List MetricCallback × ℤ × (ℕ → MetricCallback)
  | _, [], nextSend, callbacks => ([], nextSend, callbacks)
  | j, metric :: metrics, nextSend, callbacks =>
    let cb := (callbacks metric).collect (value j)
    let (collected, nextSend, callbacks) :=
      collectMetrics value (j + 1) metrics (if cb.immediate then 0 else nextSend) (Function.update callbacks metric cb)
    (cb :: collected, nextSend, callbacks)

/-- `Ganglia_collection_group_collect`. -/
def gangliaCollectionGroupCollect (now : ℤ) (value : ℕ → (type : ValueType) → GVal type) (group : CollectionGroup)
    (callbacks : ℕ → MetricCallback) : Visit × (ℕ → MetricCallback) :=
  let (collected, nextSend, callbacks) := collectMetrics value 0 group.metricArray group.nextSend callbacks
  (⟨group, collected, { group with nextSend, nextCollect := now + group.collectEvery.toInt * aprUsecPerSec }, none⟩,
    callbacks)

def metadataDue (s : State) (now metadataLastSent : ℤ) : Bool :=
  s.allowExtraData && (decide (metadataLastSent = 0) || decide (s.sendMetadataInterval ≠ 0 ∧
    metadataLastSent < now - s.sendMetadataInterval * aprUsecPerSec))

/-- The loop of `Ganglia_collection_group_send`, from the metric at `j`. -/
def sendMetrics (s : State) (now : ℤ) (metadataSent sent : ℕ → Bool) (timeThreshold : Int32) :
    ℕ → List ℕ → ℤ → (ℕ → MetricCallback) → List Bool × ℤ × (ℕ → MetricCallback)
  | _, [], nextSend, callbacks => ([], nextSend, callbacks)
  | j, metric :: metrics, nextSend, callbacks =>
    let cb := callbacks metric
    if cb.type = .unknown then sendMetrics s now metadataSent sent timeThreshold (j + 1) metrics nextSend callbacks
    else
      let metadataLastSent :=
        if metadataDue s now cb.metadataLastSent && metadataSent j then now else cb.metadataLastSent
      let (results, nextSend, callbacks) := sendMetrics s now metadataSent sent timeThreshold (j + 1) metrics
        (if sent j then now + timeThreshold.toInt * aprUsecPerSec else nextSend)
        (Function.update callbacks metric { cb with metadataLastSent })
      (sent j :: results, nextSend, callbacks)

/-- `Ganglia_collection_group_send`. -/
def gangliaCollectionGroupSend (s : State) (now : ℤ) (metadataSent sent : ℕ → Bool) (visit : Visit)
    (callbacks : ℕ → MetricCallback) : Visit × (ℕ → MetricCallback) :=
  let group := visit.after
  let (results, nextSend, callbacks) :=
    sendMetrics s now metadataSent sent group.timeThreshold 0 group.metricArray group.nextSend callbacks
  ({ visit with after := { group with nextSend }, sent := some results }, callbacks)

/-- The first loop of `process_collection_groups`, from the group at `i`. -/
def collectGroups (turn : Turn) :
    ℕ → List CollectionGroup → (ℕ → MetricCallback) → List Visit × (ℕ → MetricCallback)
  | _, [], callbacks => ([], callbacks)
  | i, group :: groups, callbacks =>
    let (visit, callbacks) :=
      if group.nextCollect ≤ turn.now then gangliaCollectionGroupCollect turn.now (turn.value i) group callbacks
      else (⟨group, [], group, none⟩, callbacks)
    let (visits, callbacks) := collectGroups turn (i + 1) groups callbacks
    (visit :: visits, callbacks)

/-- The second loop. -/
def sendGroups (s : State) (turn : Turn) : ℕ → List Visit → (ℕ → MetricCallback) → List Visit × (ℕ → MetricCallback)
  | _, [], callbacks => ([], callbacks)
  | i, visit :: visits, callbacks =>
    let (visit, callbacks) :=
      if visit.after.nextSend ≤ turn.now then
        gangliaCollectionGroupSend s turn.now (turn.metadataSent i) (turn.sent i) visit callbacks
      else (visit, callbacks)
    let (visits, callbacks) := sendGroups s turn (i + 1) visits callbacks
    (visit :: visits, callbacks)

/-- The third loop, over the next events of the groups. -/
def nextEvent (events : List ℤ) : ℤ :=
  events.foldl (fun next event => if next = 0 then event else if event < next then event else next) 0

def CollectionGroup.event (group : CollectionGroup) : ℤ :=
  if group.nextSend < group.nextCollect then group.nextSend else group.nextCollect

/-- `Ganglia_metadata_request`, for the metrics it comes for. -/
def request (requested : ℕ → Bool) (callbacks : ℕ → MetricCallback) (metric : ℕ) : MetricCallback :=
  if requested metric then { callbacks metric with metadataLastSent := 0 } else callbacks metric

/-- `process_collection_groups`, with what it does with each group and the time that it returns. -/
def processCollectionGroups (s : State) (turn : Turn) : State × List Visit × ℤ :=
  let (visits, callbacks) := collectGroups turn 0 s.groups (request turn.requested s.callbacks)
  let (visits, callbacks) := sendGroups s turn 0 visits callbacks
  let next := nextEvent (visits.map fun visit => visit.after.event)
  ({ s with callbacks, groups := visits.map Visit.after }, visits,
    if next < turn.now then turn.now + 1 * aprUsecPerSec else next)

namespace MetricCallback

/-- What the value changed by. -/
def change : MetricCallback → Option ℤ
  | { type := .unknown, .. } | { type := .string, .. } => none
  | { type := .unsignedShort, now, last, .. } => some ((UInt16.toNat last : ℤ) - UInt16.toNat now)
  | { type := .short, now, last, .. } => some (Int16.toInt last - Int16.toInt now)
  | { type := .unsignedInt, now, last, .. } => some ((UInt32.toNat last : ℤ) - UInt32.toNat now)
  | { type := .int, now, last, .. } => some (Int32.toInt last - Int32.toInt now)

/-- The value changed by at least the value threshold, if the metric has one. -/
def Changed (cb : MetricCallback) : Prop :=
  cb.valueThreshold.nonneg = true ∧ ∃ d ∈ cb.change, cb.valueThreshold.le |d| = true

/-- The value changed by so much that an `int` does not hold the difference. -/
def Far (cb : MetricCallback) : Prop := ∃ d ∈ cb.change, 2 ^ 31 ≤ |d|

end MetricCallback

/-- What is asked of a call: a group with a metric that changed is sent, one with a metric that was not sent stays due,
and the time that is returned is not later than the next event, or is soon if that has been. -/
structure Right (now : ℤ) (visits : List Visit) (next : ℤ) : Prop where
  sends : ∀ visit ∈ visits, (∃ cb ∈ visit.collected, cb.Changed) → visit.sent.isSome
  stays_due : ∀ visit ∈ visits, ∀ results ∈ visit.sent, false ∈ results → visit.after.nextSend ≤ now
  on_time : ∀ event, IsLeast {e | ∃ visit ∈ visits, e = visit.after.nextSend ∨ e = visit.after.nextCollect} event →
    (now ≤ event → next ≤ event) ∧ (event < now → next ≤ now + aprUsecPerSec)

/-- What a group meets in a call: the metrics as they are when they have been collected, and how the sending of each
that can be sent goes. -/
structure Meeting where
  group : CollectionGroup
  collected : List MetricCallback
  results : List Bool

namespace Meeting

variable (now : ℤ) (m : Meeting)

def flagged : Bool := m.collected.any MetricCallback.immediate

def due : Bool := m.flagged || decide (m.group.nextSend ≤ now)

def after : CollectionGroup :=
  { m.group with
    nextCollect :=
      if m.group.nextCollect ≤ now then now + m.group.collectEvery.toInt * aprUsecPerSec else m.group.nextCollect
    nextSend :=
      if m.due now && m.results.any id then now + m.group.timeThreshold.toInt * aprUsecPerSec
      else if m.flagged then 0 else m.group.nextSend }

/-- If a metric changed, and none that did changed by less than an `int` holds, the group is due for another reason or
the difference is still enough as an `int`. -/
def Noticed : Prop :=
  (∃ cb ∈ m.collected, cb.Changed) → (∀ cb ∈ m.collected, cb.Changed → cb.Far) → m.due now = true

/-- If the group is due and a metric cannot be sent, no other one can, or the group is to be sent all the time. -/
def Together : Prop := m.due now = true → false ∈ m.results → true ∈ m.results → m.group.timeThreshold.toInt ≤ 0

end Meeting

/-- Behind a group whose next event is at zero there is one whose next event is soon, if there is any. -/
def Followed (now : ℤ) (events : List ℤ) : Prop :=
  ∀ before after, events = before ++ 0 :: after → (∀ e ∈ events, 0 ≤ e) → after ≠ [] → ∃ e ∈ after, e ≤ now + aprUsecPerSec

/-- How the sending of the metrics of a group goes, from the metric at `j`. -/
def sendResults (sent : ℕ → Bool) (types : ℕ → ValueType) : ℕ → List ℕ → List Bool
  | _, [] => []
  | j, metric :: metrics =>
    if types metric = .unknown then sendResults sent types (j + 1) metrics
    else sent j :: sendResults sent types (j + 1) metrics

def meetingsOf (turn : Turn) (types : ℕ → ValueType) : ℕ → List Visit → List Meeting
  | _, [] => []
  | i, visit :: visits =>
    ⟨visit.before, visit.collected, sendResults (turn.sent i) types 0 visit.before.metricArray⟩ ::
      meetingsOf turn types (i + 1) visits

/-- What the groups meet in a call. -/
def meetings (s : State) (turn : Turn) : List Meeting :=
  meetingsOf turn (fun metric => (s.callbacks metric).type) 0
    (collectGroups turn 0 s.groups (request turn.requested s.callbacks)).1

/-- The calls for which all goes well. -/
structure Fits (s : State) (turn : Turn) : Prop where
  noticed : ∀ m ∈ meetings s turn, m.Noticed turn.now
  together : ∀ m ∈ meetings s turn, m.Together turn.now
  followed : Followed turn.now ((meetings s turn).map fun m => (m.after turn.now).event)

section Threshold

/-- From `2 ^ 23 * 2 ^ k` on, what has 24 bits is a multiple of `2 ^ k`. -/
theorem succ_mul_le {m e : ℤ} {k q : ℕ} (hm : |m| < 2 ^ 24) (hq : 2 ^ 23 ≤ q) (hlt : (q * 2 ^ k : ℚ) < m * 2 ^ e) :
    ((q + 1) * 2 ^ k : ℚ) ≤ m * 2 ^ e := by
  have hmlt : (m : ℚ) < 2 ^ 24 := by exact_mod_cast (abs_lt.mp hm).2
  have hqle : (2 ^ 23 : ℚ) ≤ q := by exact_mod_cast hq
  have hke : (k : ℤ) ≤ e := by
    by_contra hek
    have hpow : (2 : ℚ) ^ e ≤ 2 ^ ((k : ℤ) - 1) := zpow_le_zpow_right₀ one_le_two (by omega)
    refine absurd hlt (not_lt.mpr ?_)
    calc (m : ℚ) * 2 ^ e ≤ 2 ^ 24 * 2 ^ e := mul_le_mul_of_nonneg_right hmlt.le (zpow_pos two_pos e).le
      _ ≤ 2 ^ 24 * 2 ^ ((k : ℤ) - 1) := mul_le_mul_of_nonneg_left hpow (by norm_num)
      _ = 2 ^ 23 * 2 ^ k := by
        rw [zpow_sub_one₀ two_ne_zero, zpow_natCast]
        ring
      _ ≤ q * 2 ^ k := mul_le_mul_of_nonneg_right hqle (pow_pos two_pos k).le
  obtain ⟨j, rfl⟩ := Int.le.dest hke
  have hsplit : (m : ℚ) * 2 ^ ((k : ℤ) + j) = m * 2 ^ j * 2 ^ k := by
    rw [zpow_add₀ two_ne_zero, zpow_natCast, zpow_natCast]
    ring
  rw [hsplit] at hlt ⊢
  have hlt' : (q : ℤ) < m * 2 ^ j := by exact_mod_cast lt_of_mul_lt_mul_right hlt (pow_pos two_pos k).le
  exact mul_le_mul_of_nonneg_right (by exact_mod_cast hlt') (pow_pos two_pos k).le

/-- The rounding of an `int` is not to below a `float` that is at most the `int`. -/
theorem Binary32.le_toFloat {t : Binary32} {n : ℕ} (h : t.le n = true) : t.le (toFloat n) = true := by
  cases t with
  | infinite negative => exact h
  | nan => exact h
  | finite m e hm =>
    rw [Binary32.le, decide_eq_true_iff] at h ⊢
    rcases Nat.eq_zero_or_pos n with rfl | hn
    · exact h
    have hsign : toFloat n = roundEven n (n.log2 - 23) := by
      rw [toFloat, Int.sign_eq_one_of_pos (by exact_mod_cast hn), one_mul, Int.natAbs_natCast]
    rw [hsign, roundEven]
    set k := n.log2 - 23 with hk
    have hdiv := Nat.div_add_mod n (2 ^ k)
    have hmod := Nat.mod_lt n (Nat.two_pow_pos k)
    have hup : n < (n / 2 ^ k + 1) * 2 ^ k := by
      rw [Nat.add_one_mul, mul_comm (n / 2 ^ k)]
      omega
    split
    · by_contra hlt
      rw [not_le] at hlt
      rcases Nat.eq_zero_or_pos k with hzero | hpos
      · rw [hzero, pow_zero, Nat.div_one, mul_one] at hlt
        exact absurd h (not_le.mpr (by exact_mod_cast hlt))
      · have hq : 2 ^ 23 ≤ n / 2 ^ k := by
          rw [Nat.le_div_iff_mul_le (Nat.two_pow_pos k), ← pow_add, show 23 + k = n.log2 by omega]
          exact Nat.log2_self_le hn.ne'
        have hsucc := succ_mul_le hm hq (by exact_mod_cast hlt)
        have hupper : ((n : ℤ) : ℚ) < ((n / 2 ^ k : ℕ) + 1) * 2 ^ k := by
          rw [Int.cast_natCast]
          exact_mod_cast hup
        exact absurd (hsucc.trans h) (not_le.mpr hupper)
    · exact h.trans (by exact_mod_cast hup.le)

namespace MetricCallback

theorem difference_eq {cb : MetricCallback} {d : ℤ} (hd : d ∈ cb.change) (hlt : |d| < 2 ^ 31) : cb.difference = some d := by
  have hbmod : d.bmod (2 ^ 32) = d := by
    rw [abs_lt] at hlt
    exact Int.bmod_eq_of_le (by norm_num; omega) (by norm_num; omega)
  obtain ⟨threshold, type, now, last, metadataLastSent⟩ := cb
  cases type with
  | unknown => cases hd
  | string => cases hd
  | unsignedShort => exact hd
  | short => exact hd
  | unsignedInt =>
    cases hd
    exact congrArg some hbmod
  | int =>
    cases hd
    exact congrArg some hbmod

/-- A change of which an `int` holds the difference passes the threshold. -/
theorem Changed.passes {cb : MetricCallback} (h : cb.Changed) (hnear : ¬cb.Far) : cb.passes = true := by
  obtain ⟨hnonneg, d, hd, hle⟩ := h
  have hlt : |d| < 2 ^ 31 := by
    by_contra hge
    exact hnear ⟨d, hd, not_lt.mp hge⟩
  have habs : Schedule.abs d = (d.natAbs : ℤ) := by
    rw [Int.natCast_natAbs, Schedule.abs]
    split
    · rename_i hneg
      rw [abs_of_neg hneg] at hlt ⊢
      exact Int.bmod_eq_of_le (by norm_num; omega) (by norm_num; omega)
    · rename_i hpos
      rw [abs_of_nonneg (not_lt.mp hpos)]
  rw [MetricCallback.passes, hnonneg, difference_eq hd hlt, Option.any_some, Bool.true_and, habs]
  refine Binary32.le_toFloat ?_
  rwa [Int.natCast_natAbs]

end MetricCallback

end Threshold

section Visits

theorem collectMetrics_nextSend {value : ℕ → (type : ValueType) → GVal type} {metrics : List ℕ} {j : ℕ} {nextSend : ℤ}
    {callbacks : ℕ → MetricCallback} :
    (collectMetrics value j metrics nextSend callbacks).2.1 =
      if (collectMetrics value j metrics nextSend callbacks).1.any MetricCallback.immediate then 0 else nextSend := by
  induction metrics generalizing j nextSend callbacks with
  | nil => rfl
  | cons metric metrics ih =>
    rw [collectMetrics]
    dsimp only
    rw [ih, List.any_cons]
    cases ((callbacks metric).collect (value j)).immediate with
    | true => exact ite_self 0
    | false => rfl

theorem collectMetrics_type {value : ℕ → (type : ValueType) → GVal type} {metrics : List ℕ} {j : ℕ} {nextSend : ℤ}
    {callbacks : ℕ → MetricCallback} (metric : ℕ) :
    ((collectMetrics value j metrics nextSend callbacks).2.2 metric).type = (callbacks metric).type := by
  induction metrics generalizing j nextSend callbacks with
  | nil => rfl
  | cons metric' metrics ih =>
    rw [collectMetrics]
    dsimp only
    rw [ih, Function.update_apply]
    split
    · rename_i heq
      rw [heq]
      rfl
    · rfl

/-- What a group is when its metrics have been collected, if it was time. -/
def CollectionGroup.afterCollect (now : ℤ) (collected : List MetricCallback) (group : CollectionGroup) : CollectionGroup :=
  { group with
    nextCollect :=
      if group.nextCollect ≤ now then now + group.collectEvery.toInt * aprUsecPerSec else group.nextCollect
    nextSend := if collected.any MetricCallback.immediate then 0 else group.nextSend }

def Visit.Collected (now : ℤ) (visit : Visit) : Prop :=
  visit.sent = none ∧ visit.after = visit.before.afterCollect now visit.collected

theorem collectGroups_collected {turn : Turn} {groups : List CollectionGroup} {i : ℕ} {callbacks : ℕ → MetricCallback} :
    ∀ visit ∈ (collectGroups turn i groups callbacks).1, visit.Collected turn.now := by
  induction groups generalizing i callbacks with
  | nil => exact nofun
  | cons group groups ih =>
    rw [collectGroups]
    dsimp only
    refine List.forall_mem_cons.mpr ⟨?_, ih⟩
    split
    · rename_i hcollect
      refine ⟨rfl, ?_⟩
      rw [gangliaCollectionGroupCollect, CollectionGroup.afterCollect]
      dsimp only
      rw [if_pos hcollect, collectMetrics_nextSend]
    · rename_i hcollect
      refine ⟨rfl, ?_⟩
      rw [CollectionGroup.afterCollect]
      dsimp only
      rw [if_neg hcollect]
      rfl

theorem collectGroups_type {turn : Turn} {groups : List CollectionGroup} {i : ℕ} {callbacks : ℕ → MetricCallback}
    (metric : ℕ) : ((collectGroups turn i groups callbacks).2 metric).type = (callbacks metric).type := by
  induction groups generalizing i callbacks with
  | nil => rfl
  | cons group groups ih =>
    rw [collectGroups]
    dsimp only
    rw [ih]
    split
    · exact collectMetrics_type metric
    · rfl

section Send

variable (s : State) (now : ℤ) (metadataSent sent : ℕ → Bool) (timeThreshold : Int32) {types : ℕ → ValueType}

theorem sendMetrics_spec (j : ℕ) (metrics : List ℕ) (nextSend : ℤ) {callbacks : ℕ → MetricCallback}
    (htypes : ∀ metric, (callbacks metric).type = types metric) :
    (sendMetrics s now metadataSent sent timeThreshold j metrics nextSend callbacks).1 = sendResults sent types j metrics ∧
    (sendMetrics s now metadataSent sent timeThreshold j metrics nextSend callbacks).2.1 =
      (if (sendResults sent types j metrics).any id then now + timeThreshold.toInt * aprUsecPerSec else nextSend) ∧
    ∀ metric, ((sendMetrics s now metadataSent sent timeThreshold j metrics nextSend callbacks).2.2 metric).type =
      types metric := by
  induction metrics generalizing j nextSend callbacks with
  | nil => exact ⟨rfl, rfl, htypes⟩
  | cons metric metrics ih =>
    rw [sendMetrics, sendResults]
    dsimp only
    by_cases hunknown : types metric = .unknown
    · rw [if_pos ((htypes metric).trans hunknown), if_pos hunknown]
      exact ih _ _ htypes
    · rw [if_neg fun h => hunknown ((htypes metric).symm.trans h), if_neg hunknown]
      have htypes' : ∀ metadataLastSent metric', (Function.update callbacks metric
          { callbacks metric with metadataLastSent } metric').type = types metric' := by
        intro metadataLastSent metric'
        rw [Function.update_apply]
        split
        · rename_i heq
          rw [heq]
          exact htypes metric
        · exact htypes metric'
      obtain ⟨hresults, hnext, htypes''⟩ := ih (j + 1) _ (htypes' _)
      refine ⟨by rw [hresults], ?_, htypes''⟩
      rw [hnext, List.any_cons]
      cases sent j with
      | true => exact ite_self _
      | false => rfl

end Send

/-- What a call does with a group that meets that. -/
def Meeting.visit (now : ℤ) (m : Meeting) : Visit where
  before := m.group
  collected := m.collected
  after := m.after now
  sent := if m.due now then some m.results else none

theorem sendGroups_visits {s : State} {turn : Turn} {types : ℕ → ValueType} {visits : List Visit} {i : ℕ}
    {callbacks : ℕ → MetricCallback} (hvisits : ∀ visit ∈ visits, visit.Collected turn.now)
    (htypes : ∀ metric, (callbacks metric).type = types metric) :
    (sendGroups s turn i visits callbacks).1 = (meetingsOf turn types i visits).map (Meeting.visit turn.now) := by
  induction visits generalizing i callbacks with
  | nil => rfl
  | cons visit visits ih =>
    obtain ⟨⟨hsent, hafter⟩, hvisits'⟩ := List.forall_mem_cons.mp hvisits
    obtain ⟨before, collected, after, sent⟩ := visit
    dsimp only at hsent hafter
    subst hsent hafter
    rw [sendGroups, meetingsOf, List.map_cons]
    dsimp only
    set m : Meeting := ⟨before, collected, sendResults (turn.sent i) types 0 before.metricArray⟩ with hm
    have hdue : (before.afterCollect turn.now collected).nextSend ≤ turn.now ↔ m.due turn.now = true := by
      rw [CollectionGroup.afterCollect, Meeting.due, Meeting.flagged, hm, Bool.or_eq_true, decide_eq_true_iff]
      dsimp only
      split
      · rename_i hflagged
        exact iff_of_true turn.now_pos.le (.inl hflagged)
      · rename_i hflagged
        exact (or_iff_right hflagged).symm
    by_cases hsend : m.due turn.now = true
    · obtain ⟨hresults, hnext, htypes'⟩ := sendMetrics_spec s turn.now (turn.metadataSent i) (turn.sent i)
        before.timeThreshold 0 before.metricArray (before.afterCollect turn.now collected).nextSend htypes
      rw [if_pos (hdue.mpr hsend), ih hvisits', Meeting.visit, Meeting.after, if_pos hsend, hsend, Bool.true_and]
      · congr 1
        rw [gangliaCollectionGroupSend]
        dsimp only
        rw [show (before.afterCollect turn.now collected).timeThreshold = before.timeThreshold from rfl,
          show (before.afterCollect turn.now collected).metricArray = before.metricArray from rfl, hresults, hnext]
        rfl
      · exact htypes'
    · rw [if_neg fun h => hsend (hdue.mp h), ih hvisits' htypes, Meeting.visit, Meeting.after, if_neg hsend,
        Bool.eq_false_iff.mpr hsend, Bool.false_and, if_neg Bool.false_ne_true]
      rfl

/-- A call does with each group what the group meets. -/
theorem visits_eq (s : State) (turn : Turn) :
    (processCollectionGroups s turn).2.1 = (meetings s turn).map (Meeting.visit turn.now) := by
  refine sendGroups_visits collectGroups_collected fun metric => ?_
  rw [collectGroups_type, request]
  split <;> rfl

theorem next_eq (s : State) (turn : Turn) :
    (processCollectionGroups s turn).2.2 =
      if nextEvent ((meetings s turn).map fun m => (m.after turn.now).event) < turn.now then turn.now + aprUsecPerSec
      else nextEvent ((meetings s turn).map fun m => (m.after turn.now).event) := by
  have hevents : (processCollectionGroups s turn).2.1.map (fun visit => visit.after.event) =
      (meetings s turn).map fun m => (m.after turn.now).event := by
    rw [visits_eq, List.map_map]
    rfl
  rw [← hevents, ← one_mul aprUsecPerSec]
  rfl

end Visits

section Events

theorem nextEvent_append (events : List ℤ) (event : ℤ) :
    nextEvent (events ++ [event]) =
      if nextEvent events = 0 then event else if event < nextEvent events then event else nextEvent events := by
  rw [nextEvent, List.foldl_append]
  rfl

theorem nextEvent_neg {events : List ℤ} : nextEvent events < 0 ↔ ∃ e ∈ events, e < 0 := by
  induction events using List.reverseRecOn with
  | nil => exact iff_of_false (lt_irrefl 0) (by rintro ⟨_, ⟨⟩, _⟩)
  | append_singleton events event ih =>
    have hmem : (∃ e ∈ events ++ [event], e < 0) ↔ (∃ e ∈ events, e < 0) ∨ event < 0 := by
      simp only [List.mem_append, List.mem_singleton, or_and_right, exists_or, exists_eq_left]
    rw [nextEvent_append, hmem, ← ih]
    split_ifs <;> omega

/-- Nothing is set if there is no event or the last one is at zero. -/
theorem nextEvent_eq_zero {events : List ℤ} :
    nextEvent events = 0 ↔ (∀ e ∈ events, 0 ≤ e) ∧ (events = [] ∨ ∃ before, events = before ++ [0]) := by
  have hneg : nextEvent events < 0 ↔ ∃ e ∈ events, e < 0 := nextEvent_neg
  have hforall : (∀ e ∈ events, 0 ≤ e) ↔ ¬∃ e ∈ events, e < 0 := by
    simp only [not_exists, not_and, not_lt]
  rw [hforall, ← hneg]
  induction events using List.reverseRecOn with
  | nil => exact ⟨fun _ => ⟨lt_irrefl 0, .inl rfl⟩, fun _ => rfl⟩
  | append_singleton events event _ =>
    have hlast : (events ++ [event] = [] ∨ ∃ before, events ++ [event] = before ++ [0]) ↔ event = 0 := by
      constructor
      · rintro (h | ⟨before, h⟩)
        · exact nomatch (List.append_eq_nil_iff.mp h).2
        · exact (List.append_singleton_inj.mp h).2
      · rintro rfl
        exact .inr ⟨events, rfl⟩
    rw [hlast, nextEvent_append]
    split_ifs <;> omega

/-- The events are some, or they are some behind one at zero. -/
def Behind (after events : List ℤ) : Prop := events = after ∨ ∃ before, events = before ++ 0 :: after

theorem Behind.append {after events : List ℤ} (h : Behind after events) (event : ℤ) :
    Behind (after ++ [event]) (events ++ [event]) := by
  rcases h with rfl | ⟨before, rfl⟩
  · exact .inl rfl
  · exact .inr ⟨before, by rw [List.append_assoc, List.cons_append]⟩

theorem Behind.of_append {after events : List ℤ} {event : ℤ} (h : Behind after (events ++ [event])) (hne : after ≠ []) :
    ∃ after', after = after' ++ [event] ∧ Behind after' events := by
  obtain ⟨after', last, rfl⟩ := (List.eq_nil_or_concat' after).resolve_left hne
  rcases h with heq | ⟨before, heq⟩
  · obtain ⟨rfl, rfl⟩ := List.append_singleton_inj.mp heq
    exact ⟨events, rfl, .inl rfl⟩
  · rw [← List.cons_append, ← List.append_assoc] at heq
    obtain ⟨rfl, rfl⟩ := List.append_singleton_inj.mp heq
    exact ⟨after', rfl, .inr ⟨before, rfl⟩⟩

/-- The next event is behind a limit if the events behind the last one at zero are. -/
theorem lt_nextEvent {limit : ℤ} (hlimit : 0 ≤ limit) {events : List ℤ} :
    limit < nextEvent events ↔
      (∀ e ∈ events, 0 ≤ e) ∧ ∃ after, after ≠ [] ∧ (∀ e ∈ after, limit < e) ∧ Behind after events := by
  induction events using List.reverseRecOn with
  | nil =>
    refine iff_of_false (not_lt.mpr hlimit) ?_
    rintro ⟨-, after, hne, -, rfl | ⟨before, h⟩⟩
    · exact hne rfl
    · exact nomatch (List.append_eq_nil_iff.mp h.symm).2
  | append_singleton events event ih =>
    have hsome : ∀ after : List ℤ, after ++ [event] ≠ [] := fun after h => nomatch (List.append_eq_nil_iff.mp h).2
    have hforall : ∀ {P : ℤ → Prop} {l : List ℤ}, (∀ e ∈ l, P e) → P event → ∀ e ∈ l ++ [event], P e := by
      intro P l hl hevent e he
      rcases List.mem_append.mp he with he | he
      · exact hl e he
      · exact List.mem_singleton.mp he ▸ hevent
    have hadd : limit < nextEvent events → limit < event → (∀ e ∈ events ++ [event], 0 ≤ e) ∧
        ∃ after, after ≠ [] ∧ (∀ e ∈ after, limit < e) ∧ Behind after (events ++ [event]) := by
      intro hnext hevent
      obtain ⟨hnonneg, after, -, hafter, hbehind⟩ := ih.mp hnext
      exact ⟨hforall hnonneg (by omega), after ++ [event], hsome after, hforall hafter hevent, hbehind.append event⟩
    rw [nextEvent_append]
    constructor
    · intro h
      split_ifs at h with hzero hlt
      · obtain ⟨hnonneg, hevents⟩ := nextEvent_eq_zero.1 hzero
        refine ⟨hforall hnonneg (by omega), [event], List.cons_ne_nil _ _, by simpa using h, ?_⟩
        rcases hevents with rfl | ⟨before, rfl⟩
        · exact .inl rfl
        · exact .inr ⟨before, by rw [List.append_assoc]; rfl⟩
      · exact hadd (h.trans hlt) h
      · exact hadd h (h.trans_le (not_lt.mp hlt))
    · rintro ⟨hnonneg, after, hne, hafter, hbehind⟩
      obtain ⟨after', rfl, hbehind'⟩ := hbehind.of_append hne
      have hevent : limit < event := hafter event (List.mem_append_right _ (List.mem_singleton_self event))
      have hnonneg' : ∀ e ∈ events, 0 ≤ e := fun e he => hnonneg e (List.mem_append_left _ he)
      split_ifs with hzero hlt
      · exact hevent
      · exact hevent
      · refine ih.mpr ⟨hnonneg', after', ?_, fun e he => hafter e (List.mem_append_left _ he), hbehind'⟩
        rintro rfl
        refine hzero (nextEvent_eq_zero.2 ⟨hnonneg', hbehind'⟩)

theorem nextEvent_isLeast {events : List ℤ} (hne : events ≠ []) (hpos : ∀ e ∈ events, 0 < e) :
    IsLeast {e | e ∈ events} (nextEvent events) := by
  induction events using List.reverseRecOn with
  | nil => exact absurd rfl hne
  | append_singleton events event ih =>
    rw [nextEvent_append]
    rcases eq_or_ne events [] with rfl | hne'
    · exact ⟨List.mem_singleton_self _, fun e he => (List.mem_singleton.mp he).ge⟩
    · obtain ⟨hmem, hle⟩ := ih hne' fun e he => hpos e (List.mem_append_left _ he)
      have hpos' := hpos _ (List.mem_append_left _ hmem)
      rw [if_neg hpos'.ne']
      have hlast : ∀ {least}, least ≤ event → least ≤ nextEvent events → ∀ e ∈ events ++ [event], least ≤ e := by
        intro least hevent hnext e he
        rcases List.mem_append.mp he with he | he
        · exact hnext.trans (hle he)
        · exact hevent.trans (List.mem_singleton.mp he).ge
      split
      · rename_i hlt
        exact ⟨List.mem_append_right _ (List.mem_singleton_self event), hlast le_rfl hlt.le⟩
      · rename_i hlt
        exact ⟨List.mem_append_left _ hmem, hlast (not_lt.mp hlt) le_rfl⟩

/-- The time that is returned, for the next events of the groups. -/
theorem on_time_iff {now : ℤ} (hnow : 0 < now) (events : List ℤ) :
    (∀ event, IsLeast {e | e ∈ events} event →
      (now ≤ event → (if nextEvent events < now then now + aprUsecPerSec else nextEvent events) ≤ event) ∧
      (event < now → (if nextEvent events < now then now + aprUsecPerSec else nextEvent events) ≤ now + aprUsecPerSec)) ↔
    Followed now events := by
  have hlimit : 0 ≤ now + aprUsecPerSec := add_nonneg hnow.le (by decide)
  constructor
  · rintro hall before after rfl hnonneg hne
    by_contra hsoon
    push Not at hsoon
    have hlt := (lt_nextEvent hlimit).mpr ⟨hnonneg, after, hne, hsoon, .inr ⟨before, rfl⟩⟩
    have hle := (hall 0 ⟨List.mem_append_right _ List.mem_cons_self, hnonneg⟩).2 hnow
    split at hle
    · rename_i hpast
      exact absurd (hlt.trans hpast) (not_lt.mpr (le_add_of_nonneg_right (by decide)))
    · exact absurd hlt (not_lt.mpr hle)
  · intro hfollowed event hleast
    by_cases hpos : ∀ e ∈ events, 0 < e
    · have hnext : nextEvent events = event :=
        (nextEvent_isLeast (List.ne_nil_of_mem hleast.1) hpos).unique hleast
      rw [hnext]
      constructor
      · intro hfuture
        rw [if_neg (not_lt.mpr hfuture)]
      · intro hpast
        rw [if_pos hpast]
    · push Not at hpos
      obtain ⟨e, he, hzero⟩ := hpos
      have hpast : event < now := (hleast.2 he).trans_lt (hzero.trans_lt hnow)
      refine ⟨fun hfuture => absurd hpast (not_lt.mpr hfuture), fun _ => ?_⟩
      split
      · exact le_rfl
      · by_contra hlate
        obtain ⟨hnonneg, after, hne, hafter, heq | ⟨before, heq⟩⟩ := (lt_nextEvent hlimit).mp (not_le.mp hlate)
        · exact absurd (hafter e (heq ▸ he)) (not_lt.mpr (hzero.trans hlimit))
        · obtain ⟨e', he', hsoon⟩ := hfollowed before after heq hnonneg hne
          exact absurd (hafter e' he') (not_lt.mpr hsoon)

end Events

/-- The first of the next events of the groups is the first time that a group is to be sent or collected. -/
theorem isLeast_events {visits : List Visit} {event : ℤ} :
    IsLeast {e | ∃ visit ∈ visits, e = visit.after.nextSend ∨ e = visit.after.nextCollect} event ↔
      IsLeast {e | e ∈ visits.map fun visit => visit.after.event} event := by
  have hevent : ∀ group : CollectionGroup, (group.event = group.nextSend ∨ group.event = group.nextCollect) ∧
      group.event ≤ group.nextSend ∧ group.event ≤ group.nextCollect := by
    intro group
    rw [CollectionGroup.event]
    split_ifs <;> omega
  simp only [IsLeast, Set.mem_ofPred_eq, mem_lowerBounds, List.mem_map]
  constructor
  · rintro ⟨⟨visit, hvisit, htime⟩, hlower⟩
    have hle : ∀ visit' ∈ visits, event ≤ visit'.after.event := fun visit' hvisit' =>
      hlower _ ⟨visit', hvisit', (hevent visit'.after).1⟩
    refine ⟨⟨visit, hvisit, le_antisymm ?_ (hle visit hvisit)⟩, ?_⟩
    · rcases htime with rfl | rfl
      · exact (hevent visit.after).2.1
      · exact (hevent visit.after).2.2
    · rintro e ⟨visit', hvisit', rfl⟩
      exact hle visit' hvisit'
  · rintro ⟨⟨visit, hvisit, rfl⟩, hlower⟩
    refine ⟨⟨visit, hvisit, (hevent visit.after).1⟩, ?_⟩
    rintro e ⟨visit', hvisit', htime⟩
    refine (hlower _ ⟨visit', hvisit', rfl⟩).trans ?_
    rcases htime with rfl | rfl
    · exact (hevent visit'.after).2.1
    · exact (hevent visit'.after).2.2

theorem Meeting.noticed_iff {now : ℤ} {m : Meeting} :
    m.Noticed now ↔ ((∃ cb ∈ m.collected, cb.Changed) → m.due now = true) := by
  constructor
  · intro hnoticed hchanged
    by_cases hfar : ∀ cb ∈ m.collected, cb.Changed → cb.Far
    · exact hnoticed hchanged hfar
    · push Not at hfar
      obtain ⟨cb, hcb, hcbChanged, hnear⟩ := hfar
      have hflagged : m.flagged = true := by
        refine List.any_eq_true.mpr ⟨cb, hcb, ?_⟩
        rw [MetricCallback.immediate, hcbChanged.passes hnear, Bool.true_or]
      rw [Meeting.due, hflagged, Bool.true_or]
  · exact fun h hchanged _ => h hchanged

theorem Meeting.together_iff {now : ℤ} (hnow : 0 < now) {m : Meeting} :
    m.Together now ↔ (m.due now = true → false ∈ m.results → (m.after now).nextSend ≤ now) := by
  refine forall_congr' fun hdue => forall_congr' fun _ => ?_
  have hany : m.results.any id = true ↔ true ∈ m.results := by
    rw [List.any_eq_true]
    exact ⟨fun ⟨b, hb, hb'⟩ => hb' ▸ hb, fun h => ⟨true, h, rfl⟩⟩
  rw [Meeting.after, hdue, Bool.true_and, ← hany]
  by_cases hsome : m.results.any id = true
  · have hthreshold : now + m.group.timeThreshold.toInt * aprUsecPerSec ≤ now ↔ m.group.timeThreshold.toInt ≤ 0 := by
      rw [aprUsecPerSec]
      omega
    rw [if_pos hsome, hthreshold]
    exact ⟨fun h => h hsome, fun h _ => h⟩
  · rw [if_neg hsome]
    refine iff_of_true (fun h => absurd h hsome) ?_
    rw [Meeting.due, Bool.or_eq_true, decide_eq_true_iff] at hdue
    dsimp only
    by_cases hflagged : m.flagged = true
    · rw [if_pos hflagged]
      exact hnow.le
    · rw [if_neg hflagged]
      exact hdue.resolve_left hflagged

/-- A call is right exactly in these cases. -/
theorem right_iff_fits (s : State) (turn : Turn) :
    Right turn.now (processCollectionGroups s turn).2.1 (processCollectionGroups s turn).2.2 ↔ Fits s turn := by
  rw [next_eq, visits_eq]
  have hsent : ∀ m : Meeting, (m.visit turn.now).sent = if m.due turn.now then some m.results else none := fun _ => rfl
  have hleast : ∀ event, IsLeast {e | ∃ visit ∈ (meetings s turn).map (Meeting.visit turn.now),
        e = visit.after.nextSend ∨ e = visit.after.nextCollect} event ↔
      IsLeast {e | e ∈ (meetings s turn).map fun m => (m.after turn.now).event} event := by
    intro event
    rw [isLeast_events, List.map_map]
    rfl
  constructor
  · rintro ⟨hsends, hstays, hon⟩
    refine ⟨fun m hm => ?_, fun m hm => ?_, ?_⟩
    · refine Meeting.noticed_iff.2 fun hchanged => ?_
      have h := hsends _ (List.mem_map_of_mem hm) hchanged
      by_contra hdue
      rw [hsent, if_neg hdue] at h
      cases h
    · refine (Meeting.together_iff turn.now_pos).mpr fun hdue hfalse => ?_
      exact hstays _ (List.mem_map_of_mem hm) m.results (by rw [hsent, if_pos hdue]; rfl) hfalse
    · exact (on_time_iff turn.now_pos _).mp fun event hevent => hon event ((hleast event).mpr hevent)
  · rintro ⟨hnoticed, htogether, hfollowed⟩
    refine ⟨?_, ?_, fun event hevent => (on_time_iff turn.now_pos _).mpr hfollowed event ((hleast event).mp hevent)⟩
    · intro visit hvisit hchanged
      obtain ⟨m, hm, rfl⟩ := List.mem_map.mp hvisit
      rw [hsent, if_pos (Meeting.noticed_iff.1 (hnoticed m hm) hchanged)]
      rfl
    · intro visit hvisit results hresults hfalse
      obtain ⟨m, hm, rfl⟩ := List.mem_map.mp hvisit
      rw [hsent] at hresults
      split at hresults
      · rename_i hdue
        cases hresults
        exact (Meeting.together_iff turn.now_pos).mp (htogether m hm) hdue hfalse
      · cases hresults

def step (s : State) (turn : Turn) : State := (processCollectionGroups s turn).1

/-- From any state, each call of a run is right exactly if it is one of these. -/
theorem runs_right_iff (s : State) (turns : List Turn) :
    EachStep step (fun s turn =>
        Right turn.now (processCollectionGroups s turn).2.1 (processCollectionGroups s turn).2.2) turns s ↔
      EachStep step Fits turns s := by
  induction turns generalizing s with
  | nil => exact Iff.rfl
  | cons turn turns ih => exact and_congr (right_iff_fits s turn) (ih (step s turn))

/-- A metric as it is set up, with that value threshold. -/
def metricSetUp (valueThreshold : Binary32) : MetricCallback where
  valueThreshold
  type := .unsignedInt
  now := (0 : UInt32)
  last := (0 : UInt32)
  metadataLastSent := 0

/-- Groups of these metrics as they are set up, to be collected each minute and sent each hour. -/
def setUp (valueThreshold : Binary32) (groups : List (List ℕ)) : State where
  allowExtraData := true
  sendMetadataInterval := 0
  callbacks _ := metricSetUp valueThreshold
  groups := groups.map fun metricArray => ⟨0, 0, 60, 3600, metricArray⟩

def valueOf (v : UInt32) : (type : ValueType) → GVal type
  | .unknown => ()
  | .string => ""
  | .unsignedShort => (0 : UInt16)
  | .short => (0 : Int16)
  | .unsignedInt => v
  | .int => (0 : Int32)

/-- A call in which each value is the same. -/
def turnAt (now : ℤ) (now_pos : 0 < now) (v : UInt32) (sent : ℕ → ℕ → Bool) : Turn where
  now
  now_pos
  requested _ := false
  value _ _ := valueOf v
  metadataSent _ _ := true
  sent

def noThreshold : Binary32 := .finite (-1) 0 (by decide)

def thresholdTwo : Binary32 := .finite 2 0 (by decide)

/-- The first metric of each group is not sent. -/
def firstMetricFails : Turn := turnAt 1000000000 (by decide) 0 fun _ j => decide (j ≠ 0)

/-- The first group is not sent. -/
def firstGroupFails : Turn := turnAt 1000000000 (by decide) 0 fun i _ => decide (i ≠ 0)

def noneFails (now : ℤ) (now_pos : 0 < now) (v : UInt32) : Turn := turnAt now now_pos v fun _ _ => true

/-- A group is put off for an hour by its second metric, the time that is returned is that of the second group, and a
change from nothing to all is not noticed. -/
theorem not_runs_right :
    ¬EachStep step (fun s turn =>
      Right turn.now (processCollectionGroups s turn).2.1 (processCollectionGroups s turn).2.2)
        [firstMetricFails] (setUp noThreshold [[0, 1]]) ∧
    ¬EachStep step (fun s turn =>
      Right turn.now (processCollectionGroups s turn).2.1 (processCollectionGroups s turn).2.2)
        [firstGroupFails] (setUp noThreshold [[0], [1]]) ∧
    ¬EachStep step (fun s turn =>
      Right turn.now (processCollectionGroups s turn).2.1 (processCollectionGroups s turn).2.2)
        [noneFails 1000000000 (by decide) 0, noneFails 1060000000 (by decide) 4294967295]
        (setUp thresholdTwo [[0]]) := by
  refine ⟨fun ⟨h, _⟩ => ?_, fun ⟨h, _⟩ => ?_, fun ⟨_, h, _⟩ => ?_⟩
  · have hlate := h.stays_due _ (List.head_mem (by decide)) [false, true] (by decide) (by decide)
    exact absurd hlate (by decide)
  · have hevents : (processCollectionGroups (setUp noThreshold [[0], [1]]) firstGroupFails).2.1.map
        (fun visit => visit.after.event) = [0, 1060000000] := by decide
    have hleast := isLeast_events.2 (hevents ▸ show IsLeast {e | e ∈ [(0 : ℤ), 1060000000]} 0 by
      refine ⟨List.mem_cons_self, ?_⟩
      simp [mem_lowerBounds])
    exact absurd ((h.on_time 0 hleast).2 (by decide)) (by decide)
  · refine absurd (h.sends _ (List.head_mem (by decide)) ⟨_, List.head_mem (by with_unfolding_all decide), ?_⟩)
      (by with_unfolding_all decide)
    exact ⟨by with_unfolding_all decide, -4294967295, by with_unfolding_all decide, by with_unfolding_all decide⟩

end Colama.Ganglia.Schedule

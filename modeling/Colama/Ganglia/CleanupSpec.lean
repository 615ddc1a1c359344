import Colama.Lib.Histories
import Colama.Ganglia.Cleanup

namespace Colama.Ganglia

open Lib (Table newest newest_concat Before)

def Event.isFrom (key : String) : Event → Bool
  | .message _ remoteIp msg => hostKey remoteIp msg.metricId == some key
  | .cleanup _ => false

/-- Metadata or a value of a metric. -/
def Event.isAbout (key name : String) : Event → Bool
  | .message _ remoteIp (.full id _) => hostKey remoteIp id == some key && id.name == name
  | .message _ remoteIp (.value id) => hostKey remoteIp id == some key && id.name == name
  | _ => false

/-- The time of the last event that meets `p`. -/
def lastTime (p : Event → Bool) (events : List Event) : Option ℤ := (newest p events).map Event.time

variable {hostDmax : Int32} {events : List Event} {hosts : Table String GangliaHost} {key name : String} {now : ℤ}

/-- The hosts after a cleanup are those that were heard from within `hostDmax`. -/
def HostsRight (hostDmax : Int32) (events : List Event) (now : ℤ) (after : Table String GangliaHost) : Prop :=
  ∀ key, (after.lookup key).isSome ↔ ∃ last, lastTime (Event.isFrom key) events = some last ∧
    (hostDmax = 0 ∨ now - last ≤ hostDmax.toInt * aprUsecPerSec)

/-- The metrics with metadata that remain are those of which a message was received within their `dmax`. -/
def MetricsRight (events : List Event) (now : ℤ) (before after : Table String GangliaHost) : Prop :=
  ∀ key host host', before.lookup key = some host → after.lookup key = some host' → ∀ name,
    (host'.metrics.lookup name).isSome ↔ ∃ metric, host.metrics.lookup name = some metric ∧
      (metric.dmax = 0 ∨ ∃ last, lastTime (Event.isAbout key name) events = some last ∧
        now - last ≤ metric.dmax.toNat * aprUsecPerSec)

/-- Neither half of a metric remains where the other one was removed. -/
def HalvesRight (before after : Table String GangliaHost) : Prop :=
  ∀ key host host', before.lookup key = some host → after.lookup key = some host' → ∀ name,
    ((host.metrics.lookup name).isSome → host'.metrics.lookup name = none → host'.gmetrics.lookup name = none) ∧
      ((host.gmetrics.lookup name).isSome → host'.gmetrics.lookup name = none → host'.metrics.lookup name = none)

/-- What an event should do, after some others. -/
def CleanupRight (hostDmax : Int32) (events : List Event) : Event → Prop
  | .message .. => True
  | .cleanup now =>
    HostsRight hostDmax events now (cleanupData now (hostsAfter hostDmax events) hostDmax) ∧
      MetricsRight events now (hostsAfter hostDmax events)
        (cleanupData now (hostsAfter hostDmax events) hostDmax) ∧
      HalvesRight (hostsAfter hostDmax events) (cleanupData now (hostsAfter hostDmax events) hostDmax)

/-- When a metric was last heard. -/
def Metadata.heard (metric : Metadata) : Option ℤ → ℤ
  | none => metric.lastHeardFrom
  | some v => max metric.lastHeardFrom v

/-- The metadata are as fresh as the values, or both are stale, as far as `dmax` goes. -/
def Metadata.Agrees (now : ℤ) (metric : Metadata) (value : Option ℤ) : Prop :=
  metric.dmax = 0 ∨
    metric.dmax.toNat < 2 ^ 31 ∧ (now - metric.lastHeardFrom ≤ metric.dmax.toNat * aprUsecPerSec ∨
      ∀ v, value = some v → metric.dmax.toNat * aprUsecPerSec < now - v) ∨
    2 ^ 31 ≤ metric.dmax.toNat ∧ metric.dmax.toNat * aprUsecPerSec < now - metric.heard value

/-- At a cleanup, for the metrics of the hosts that remain. -/
def CleanupAgrees (hostDmax : Int32) (events : List Event) : Event → Prop
  | .message .. => True
  | .cleanup now => ∀ key host, (hostsAfter hostDmax events).lookup key = some host →
      host.stale now hostDmax = false → ∀ name metric, host.metrics.lookup name = some metric →
        metric.Agrees now (host.gmetrics.lookup name)

theorem lastTime_concat (p : Event → Bool) (events : List Event) (e : Event) :
    lastTime p (events ++ [e]) = if p e then some e.time else lastTime p events := by
  rw [lastTime, newest_concat]
  split <;> rfl

theorem hostsAfter_concat (events : List Event) (e : Event) :
    hostsAfter hostDmax (events ++ [e]) = e.run hostDmax (hostsAfter hostDmax events) := by
  rw [hostsAfter, List.foldl_append]
  rfl

theorem cleanupMetric_metrics_ne (host : GangliaHost) (metric : Σ _ : String, Metadata) (h : name ≠ metric.1) :
    (cleanupMetric now host metric).metrics.lookup name = host.metrics.lookup name := by
  unfold cleanupMetric
  split
  · exact AList.lookup_erase_ne h
  · rfl

theorem cleanupMetric_gmetrics_ne (host : GangliaHost) (metric : Σ _ : String, Metadata) (h : name ≠ metric.1) :
    (cleanupMetric now host metric).gmetrics.lookup name = host.gmetrics.lookup name := by
  unfold cleanupMetric
  split
  · exact AList.lookup_erase_ne h
  · rfl

theorem cleanupMetric_metrics (host : GangliaHost) (metric : Σ _ : String, Metadata) :
    (cleanupMetric now host metric).metrics.lookup metric.1 =
      if metric.2.stale now then none else host.metrics.lookup metric.1 := by
  unfold cleanupMetric
  split
  · exact AList.lookup_erase ..
  · rfl

theorem cleanupMetric_gmetrics (host : GangliaHost) (metric : Σ _ : String, Metadata) :
    (cleanupMetric now host metric).gmetrics.lookup metric.1 =
      if metric.2.stale now then none else host.gmetrics.lookup metric.1 := by
  unfold cleanupMetric
  split
  · exact AList.lookup_erase ..
  · rfl

/-- A cleanup takes every metric for itself. -/
theorem cleanupHost_metrics (host : GangliaHost) (name : String) :
    (cleanupHost now host).metrics.lookup name =
      (host.metrics.lookup name).elim none fun metric => if metric.stale now then none else some metric := by
  let change : Metadata → Option Metadata → Option Metadata := fun metric seen =>
    if metric.stale now then none else seen
  have hwalk : (cleanupHost now host).metrics.lookup name =
      (host.metrics.lookup name).elim (host.metrics.lookup name) fun metric =>
        change metric (host.metrics.lookup name) :=
    @Table.foldl_entries _ _ _ _ _ (fun name host => host.metrics.lookup name) (cleanupMetric now) change
      (fun s e _ ha => cleanupMetric_metrics_ne s e ha) cleanupMetric_metrics host.metrics host name
  rw [hwalk]
  cases host.metrics.lookup name <;> rfl

theorem cleanupHost_gmetrics (host : GangliaHost) (name : String) :
    (cleanupHost now host).gmetrics.lookup name =
      (host.metrics.lookup name).elim (host.gmetrics.lookup name) fun metric =>
        if metric.stale now then none else host.gmetrics.lookup name := by
  let change : Metadata → Option ℤ → Option ℤ := fun metric seen => if metric.stale now then none else seen
  exact @Table.foldl_entries _ _ _ _ _ (fun name host => host.gmetrics.lookup name) (cleanupMetric now) change
    (fun s e _ ha => cleanupMetric_gmetrics_ne s e ha) cleanupMetric_gmetrics host.metrics host name

theorem cleanupHost_lastHeardFrom (host : GangliaHost) :
    (cleanupHost now host).lastHeardFrom = host.lastHeardFrom := by
  have hmetric : ∀ host metric, (cleanupMetric now host metric).lastHeardFrom = host.lastHeardFrom := by
    intro host metric
    unfold cleanupMetric
    split <;> rfl
  unfold cleanupHost
  generalize host.metrics.entries = entries
  induction entries generalizing host with
  | nil => rfl
  | cons metric entries ih => rw [List.foldl_cons, ih, hmetric]

theorem cleanupData_lookup (hosts : Table String GangliaHost) (key : String) :
    (cleanupData now hosts hostDmax).lookup key =
      (hosts.lookup key).elim none fun host => if host.stale now hostDmax then none else some (cleanupHost now host) := by
  let change : GangliaHost → Option GangliaHost → Option GangliaHost := fun host _ =>
    if host.stale now hostDmax then none else some (cleanupHost now host)
  have hwalk : (cleanupData now hosts hostDmax).lookup key =
      (hosts.lookup key).elim (hosts.lookup key) fun host => change host (hosts.lookup key) := by
    apply @Table.foldl_entries _ _ _ _ _ (fun key (hosts : Table String GangliaHost) => hosts.lookup key) _ change
    · intro s e a ha
      split
      · exact AList.lookup_erase_ne ha
      · exact AList.lookup_insert_ne ha
    · intro s e
      simp only [change]
      split
      · exact AList.lookup_erase ..
      · exact AList.lookup_insert ..
  rw [hwalk]
  cases hosts.lookup key <;> rfl

/-- The times of a host's metrics, for the events so far. -/
structure GangliaHost.Timed (events : List Event) (key : String) (host : GangliaHost) : Prop where
  value : ∀ name v, host.gmetrics.lookup name = some v → v ∈ events.map Event.time
  metric : ∀ name metric, host.metrics.lookup name = some metric →
    lastTime (Event.isAbout key name) events = some (metric.heard (host.gmetrics.lookup name))

structure Tracked (hostDmax : Int32) (events : List Event) (hosts : Table String GangliaHost) : Prop where
  heard : ∀ key host, hosts.lookup key = some host → lastTime (Event.isFrom key) events = some host.lastHeardFrom
  timed : ∀ key host, hosts.lookup key = some host → host.Timed events key
  gone : ∀ key last, hosts.lookup key = none → lastTime (Event.isFrom key) events = some last →
    hostDmax ≠ 0 ∧ ∃ t ∈ events.map Event.time, hostDmax.toInt * aprUsecPerSec < t - last

theorem lastTime_mem {p : Event → Bool} {last : ℤ} (h : lastTime p events = some last) :
    last ∈ events.map Event.time := by
  obtain ⟨e, he, rfl⟩ := Option.map_eq_some_iff.mp h
  exact List.mem_map_of_mem (Lib.newest_mem he).1

theorem isFrom_of_isAbout {e : Event} (h : e.isAbout key name) : e.isFrom key := by
  cases e with
  | cleanup now => cases h
  | message time remoteIp msg =>
    cases msg with
    | request id => cases h
    | full id dmax => exact (Bool.and_eq_true_iff.mp h).1
    | value id => exact (Bool.and_eq_true_iff.mp h).1

theorem mem_times_concat {t : ℤ} (e : Event) (h : t ∈ events.map Event.time) :
    t ∈ (events ++ [e]).map Event.time := by
  rw [List.map_append]
  exact List.mem_append_left _ h

/-- An event that is not about a host's metrics. -/
theorem GangliaHost.Timed.concat {host : GangliaHost} {e : Event} (h : host.Timed events key)
    (he : ∀ name, e.isAbout key name = false) : host.Timed (events ++ [e]) key where
  value name v hv := mem_times_concat e (h.value name v hv)
  metric name metric hm := by
    rw [lastTime_concat, he, if_neg Bool.false_ne_true]
    exact h.metric name metric hm

theorem GangliaHost.Timed.cleanupHost {host : GangliaHost} (h : host.Timed events key) :
    (cleanupHost now host).Timed events key where
  value name v hv := by
    rw [cleanupHost_gmetrics] at hv
    cases hm : host.metrics.lookup name with
    | none =>
      rw [hm] at hv
      exact h.value name v hv
    | some metric =>
      rw [hm, Option.elim_some] at hv
      split at hv
      · cases hv
      · exact h.value name v hv
  metric name metric hm := by
    rw [cleanupHost_metrics] at hm
    rw [cleanupHost_gmetrics]
    cases hm' : host.metrics.lookup name with
    | none =>
      rw [hm'] at hm
      cases hm
    | some metric' =>
      rw [hm', Option.elim_some] at hm
      split at hm
      · cases hm
      · rename_i hstale
        cases hm
        rw [Option.elim_some, if_neg hstale]
        exact h.metric name metric hm'

theorem gangliaHostGet_timed (h : Tracked hostDmax events hosts) (t : ℤ) (key : String) :
    (gangliaHostGet t hosts key).Timed events key := by
  unfold gangliaHostGet
  cases hhost : hosts.lookup key with
  | some host => exact ⟨(h.timed key host hhost).value, (h.timed key host hhost).metric⟩
  | none =>
    constructor
    · intro name v hv
      rw [AList.lookup_empty] at hv
      cases hv
    · intro name metric hm
      rw [AList.lookup_empty] at hm
      cases hm

theorem gangliaHostGet_lastHeardFrom (t : ℤ) (key : String) :
    (gangliaHostGet t hosts key).lastHeardFrom = t := by
  unfold gangliaHostGet
  split <;> rfl

variable {t : ℤ} {remoteIp : String} {id : MetricId} {host : GangliaHost}

/-- Metadata are at least as new as all values. -/
theorem Timed.gangliaMetadataSave (h : host.Timed events key) (hkey : hostKey remoteIp id = some key)
    (ht : ∀ t' ∈ events.map Event.time, t' ≤ t) (dmax : UInt32) :
    (gangliaMetadataSave t host id dmax).Timed (events ++ [.message t remoteIp (.full id dmax)]) key where
  value name v hv := mem_times_concat _ (h.value name v hv)
  metric name metric hm := by
    rw [lastTime_concat]
    by_cases hname : name = id.name
    · subst hname
      have habout : (Event.message t remoteIp (.full id dmax)).isAbout key id.name = true := by
        simp [Event.isAbout, hkey]
      rw [Ganglia.gangliaMetadataSave, AList.lookup_insert] at hm
      cases hm
      rw [if_pos habout]
      show some t = some (Metadata.heard _ (host.gmetrics.lookup id.name))
      cases hv : host.gmetrics.lookup id.name with
      | none => rfl
      | some v => exact congrArg some (max_eq_left (ht v (h.value _ v hv))).symm
    · have habout : (Event.message t remoteIp (.full id dmax)).isAbout key name = false := by
        simp [Event.isAbout, hkey, Ne.symm hname]
      rw [Ganglia.gangliaMetadataSave, AList.lookup_insert_ne hname] at hm
      rw [habout, if_neg Bool.false_ne_true]
      exact h.metric name metric hm

/-- A value is at least as new as its metadata. -/
theorem Timed.gangliaValueSave (h : host.Timed events key) (hkey : hostKey remoteIp id = some key)
    (ht : ∀ t' ∈ events.map Event.time, t' ≤ t) :
    (gangliaValueSave t host id).Timed (events ++ [.message t remoteIp (.value id)]) key where
  value name v hv := by
    by_cases hname : name = id.name
    · subst hname
      rw [Ganglia.gangliaValueSave, AList.lookup_insert] at hv
      cases hv
      simp [Event.time]
    · rw [Ganglia.gangliaValueSave, AList.lookup_insert_ne hname] at hv
      exact mem_times_concat _ (h.value name v hv)
  metric name metric hm := by
    rw [lastTime_concat, Ganglia.gangliaValueSave]
    have hold : lastTime (Event.isAbout key name) events = some (metric.heard (host.gmetrics.lookup name)) :=
      h.metric name metric hm
    by_cases hname : name = id.name
    · subst hname
      have habout : (Event.message t remoteIp (.value id)).isAbout key id.name = true := by
        simp [Event.isAbout, hkey]
      have hnew : metric.lastHeardFrom ≤ t := by
        apply le_trans _ (ht _ (lastTime_mem hold))
        cases host.gmetrics.lookup id.name with
        | none => exact le_refl _
        | some v => exact le_max_left ..
      rw [if_pos habout, AList.lookup_insert]
      exact congrArg some (max_eq_right hnew).symm
    · have habout : (Event.message t remoteIp (.value id)).isAbout key name = false := by
        simp [Event.isAbout, hkey, Ne.symm hname]
      rw [habout, if_neg Bool.false_ne_true, AList.lookup_insert_ne hname]
      exact hold

/-- What a message leaves for its own host. -/
theorem processMessage_saved {msg : Message} (h : Tracked hostDmax events hosts)
    (hkey : hostKey remoteIp msg.metricId = some key) (ht : ∀ t' ∈ events.map Event.time, t' ≤ t) :
    ∃ host, processMessage t hosts remoteIp msg = hosts.insert key host ∧ host.lastHeardFrom = t ∧
      host.Timed (events ++ [.message t remoteIp msg]) key := by
  have hget := gangliaHostGet_timed h t key
  have hheard := @gangliaHostGet_lastHeardFrom hosts t key
  unfold processMessage
  rw [hkey]
  cases msg with
  | request id => exact ⟨_, rfl, hheard, hget.concat fun _ => rfl⟩
  | full id dmax => exact ⟨_, rfl, hheard, Timed.gangliaMetadataSave hget hkey ht dmax⟩
  | value id => exact ⟨_, rfl, hheard, Timed.gangliaValueSave hget hkey ht⟩

/-- An event that is not from a host. -/
theorem Tracked.concat_gone {e : Event} {last : ℤ} (h : Tracked hostDmax events hosts)
    (he : e.isFrom key = false) (hnone : hosts.lookup key = none)
    (hlast : lastTime (Event.isFrom key) (events ++ [e]) = some last) :
    hostDmax ≠ 0 ∧ ∃ t ∈ (events ++ [e]).map Event.time, hostDmax.toInt * aprUsecPerSec < t - last := by
  rw [lastTime_concat, he, if_neg Bool.false_ne_true] at hlast
  obtain ⟨hdmax, t, hmem, ht⟩ := h.gone key last hnone hlast
  exact ⟨hdmax, t, mem_times_concat e hmem, ht⟩

theorem isAbout_eq_false {e : Event} (he : e.isFrom key = false) (name : String) : e.isAbout key name = false :=
  Bool.eq_false_iff.mpr fun h => Bool.eq_false_iff.mp he (isFrom_of_isAbout h)

/-- A message that is not from a host leaves it as it was. -/
theorem processMessage_other {msg : Message} (hkey : hostKey remoteIp msg.metricId ≠ some key) :
    (processMessage t hosts remoteIp msg).lookup key = hosts.lookup key := by
  unfold processMessage
  split
  · rfl
  · rename_i key' hkey'
    exact AList.lookup_insert_ne fun heq => hkey (heq ▸ hkey')

theorem Tracked.message {msg : Message} (h : Tracked hostDmax events hosts)
    (ht : ∀ t' ∈ events.map Event.time, t' ≤ t) :
    Tracked hostDmax (events ++ [.message t remoteIp msg]) (processMessage t hosts remoteIp msg) := by
  have hother : ∀ key, hostKey remoteIp msg.metricId ≠ some key →
      (Event.message t remoteIp msg).isFrom key = false := fun key hkey => beq_eq_false_iff_ne.mpr hkey
  constructor
  · intro key host hhost
    rw [lastTime_concat]
    by_cases hkey : hostKey remoteIp msg.metricId = some key
    · obtain ⟨host', hsaved, hheard, -⟩ := processMessage_saved h hkey ht
      rw [hsaved, AList.lookup_insert] at hhost
      cases hhost
      rw [Event.isFrom, hkey, BEq.rfl, if_pos rfl, hheard]
      rfl
    · rw [processMessage_other hkey] at hhost
      rw [hother key hkey, if_neg Bool.false_ne_true]
      exact h.heard key host hhost
  · intro key host hhost
    by_cases hkey : hostKey remoteIp msg.metricId = some key
    · obtain ⟨host', hsaved, -, htimed⟩ := processMessage_saved h hkey ht
      rw [hsaved, AList.lookup_insert] at hhost
      cases hhost
      exact htimed
    · rw [processMessage_other hkey] at hhost
      exact (h.timed key host hhost).concat (isAbout_eq_false (hother key hkey))
  · intro key last hnone hlast
    by_cases hkey : hostKey remoteIp msg.metricId = some key
    · obtain ⟨host', hsaved, -, -⟩ := processMessage_saved h hkey ht
      rw [hsaved, AList.lookup_insert] at hnone
      cases hnone
    · rw [processMessage_other hkey] at hnone
      exact h.concat_gone (hother key hkey) hnone hlast

theorem GangliaHost.stale_eq_false (host : GangliaHost) :
    host.stale now hostDmax = false ↔ hostDmax = 0 ∨ now - host.lastHeardFrom ≤ hostDmax.toInt * aprUsecPerSec := by
  rw [GangliaHost.stale, decide_eq_false_iff_not, not_and_or, not_not, not_lt]

theorem cleanupData_eq_some {host' : GangliaHost} :
    (cleanupData now hosts hostDmax).lookup key = some host' ↔
      ∃ host, hosts.lookup key = some host ∧ host.stale now hostDmax = false ∧ cleanupHost now host = host' := by
  rw [cleanupData_lookup]
  cases hosts.lookup key with
  | none => simp
  | some host => cases hstale : host.stale now hostDmax <;> simp [hstale]

theorem Tracked.cleanup (h : Tracked hostDmax events hosts) :
    Tracked hostDmax (events ++ [.cleanup now]) (cleanupData now hosts hostDmax) := by
  constructor
  · intro key host' hhost'
    obtain ⟨host, hhost, -, rfl⟩ := cleanupData_eq_some.1 hhost'
    rw [cleanupHost_lastHeardFrom, lastTime_concat]
    exact h.heard key host hhost
  · intro key host' hhost'
    obtain ⟨host, hhost, -, rfl⟩ := cleanupData_eq_some.1 hhost'
    exact (h.timed key host hhost).cleanupHost.concat fun _ => rfl
  · intro key last hnone hlast
    cases hhost : hosts.lookup key with
    | none => exact h.concat_gone rfl hhost hlast
    | some host =>
      rw [lastTime_concat, h.heard key host hhost] at hlast
      cases hlast
      rw [cleanupData_lookup, hhost, Option.elim_some] at hnone
      split at hnone
      · rename_i hstale
        obtain ⟨hdmax, hlate⟩ := of_decide_eq_true hstale
        exact ⟨hdmax, now, by simp [Event.time], hlate⟩
      · cases hnone

theorem tracked (hostDmax : Int32) (htimes : events.Pairwise fun a b => a.time ≤ b.time) :
    Tracked hostDmax events (hostsAfter hostDmax events) := by
  induction events using List.reverseRecOn with
  | nil =>
    have hnone : ∀ key, (hostsAfter hostDmax []).lookup key = none := AList.lookup_empty
    constructor
    · intro key host hhost
      rw [hnone] at hhost
      cases hhost
    · intro key host hhost
      rw [hnone] at hhost
      cases hhost
    · intro key last _ hlast
      cases hlast
  | append_singleton events e ih =>
    obtain ⟨hbefore, -, hlast⟩ := List.pairwise_append.mp htimes
    rw [hostsAfter_concat]
    cases e with
    | cleanup now => exact (ih hbefore).cleanup
    | message time remoteIp msg =>
      apply (ih hbefore).message
      intro t' ht'
      obtain ⟨e, he, rfl⟩ := List.mem_map.mp ht'
      exact hlast e he _ (List.mem_singleton_self _)

theorem hostsRight (h : Tracked hostDmax events hosts) (ht : ∀ t ∈ events.map Event.time, t ≤ now) :
    HostsRight hostDmax events now (cleanupData now hosts hostDmax) := by
  intro key
  rw [Option.isSome_iff_exists]
  constructor
  · rintro ⟨host', hhost'⟩
    obtain ⟨host, hhost, hfresh, -⟩ := cleanupData_eq_some.1 hhost'
    exact ⟨_, h.heard key host hhost, host.stale_eq_false.mp hfresh⟩
  · rintro ⟨last, hlast, hfresh⟩
    cases hhost : hosts.lookup key with
    | some host =>
      rw [h.heard key host hhost] at hlast
      cases hlast
      exact ⟨_, cleanupData_eq_some.2 ⟨host, hhost, host.stale_eq_false.mpr hfresh, rfl⟩⟩
    | none =>
      obtain ⟨hdmax, t, hmem, hlate⟩ := h.gone key last hhost hlast
      have hle : now - last ≤ hostDmax.toInt * aprUsecPerSec := hfresh.resolve_left hdmax
      have hnow : t ≤ now := ht t hmem
      omega

theorem halvesRight (hosts : Table String GangliaHost) :
    HalvesRight hosts (cleanupData now hosts hostDmax) := by
  intro key host host' hhost hhost' name
  obtain ⟨host₁, hhost₁, -, rfl⟩ := cleanupData_eq_some.1 hhost'
  obtain rfl : host = host₁ := Option.some.inj (hhost.symm.trans hhost₁)
  rw [cleanupHost_metrics, cleanupHost_gmetrics]
  cases host.metrics.lookup name with
  | none => simp
  | some metric =>
    rw [Option.elim_some, Option.elim_some]
    split
    · exact ⟨fun _ _ => rfl, fun _ _ => rfl⟩
    · exact ⟨fun _ h => (Option.some_ne_none metric h).elim, fun hsome hnone => by simp [hnone] at hsome⟩

theorem Metadata.stale_eq_false (metric : Metadata) : metric.stale now = false ↔
    metric.dmax.toInt32 = 0 ∨ now - metric.lastHeardFrom ≤ metric.dmax.toInt32.toInt * aprUsecPerSec := by
  rw [Metadata.stale, decide_eq_false_iff_not, not_and_or, not_not, not_lt]

theorem toInt_toInt32_of_lt {dmax : UInt32} (h : dmax.toNat < 2 ^ 31) : dmax.toInt32.toInt = dmax.toNat := by
  show dmax.toBitVec.toInt = dmax.toBitVec.toNat
  rw [BitVec.toInt_eq_toNat_cond, if_pos]
  show 2 * dmax.toNat < 2 ^ 32
  omega

theorem toInt_toInt32_neg {dmax : UInt32} (h : 2 ^ 31 ≤ dmax.toNat) : dmax.toInt32.toInt < 0 := by
  have hlt : dmax.toNat < 2 ^ 32 := dmax.toNat_lt
  show dmax.toBitVec.toInt < 0
  rw [BitVec.toInt_eq_toNat_cond, if_neg]
  · show (dmax.toNat : ℤ) - (2 ^ 32 : ℕ) < 0
    omega
  · show ¬ 2 * dmax.toNat < 2 ^ 32
    omega

theorem toInt32_eq_zero {dmax : UInt32} : dmax.toInt32 = 0 ↔ dmax = 0 := by
  constructor
  · intro h
    rw [← UInt32.toUInt32_toInt32 dmax, h]
    rfl
  · rintro rfl
    rfl

/-- When a cleanup treats a metric as it should. -/
theorem Metadata.fresh_iff_agrees (metric : Metadata) (value : Option ℤ) (h : metric.lastHeardFrom ≤ now) :
    ((metric.stale now = false) ↔
      (metric.dmax = 0 ∨ now - metric.heard value ≤ metric.dmax.toNat * aprUsecPerSec)) ↔
        metric.Agrees now value := by
  rw [Metadata.stale_eq_false, toInt32_eq_zero, Metadata.Agrees]
  by_cases hzero : metric.dmax = 0
  · simp [hzero]
  · rcases Nat.lt_or_ge metric.dmax.toNat (2 ^ 31) with hlt | hge
    · rw [toInt_toInt32_of_lt hlt]
      simp only [hzero, false_or, hlt, true_and, Nat.not_le.mpr hlt, false_and, or_false]
      cases value with
      | none => simp [Metadata.heard]
      | some v =>
        simp only [Metadata.heard, Option.some.injEq, forall_eq']
        omega
    · have hneg : metric.dmax.toInt32.toInt * aprUsecPerSec < 0 :=
        mul_neg_of_neg_of_pos (toInt_toInt32_neg hge) (by decide)
      have hstale : ¬ now - metric.lastHeardFrom ≤ metric.dmax.toInt32.toInt * aprUsecPerSec := by omega
      simp only [hzero, false_or, Nat.not_lt.mpr hge, false_and, hge, true_and, hstale, false_iff, not_le]

/-- Whether a metric of a host that remains is treated as it should be. -/
theorem metricRight_iff {metric : Metadata} (h : Tracked hostDmax events hosts)
    (ht : ∀ t ∈ events.map Event.time, t ≤ now) (hhost : hosts.lookup key = some host)
    (hmetric : host.metrics.lookup name = some metric) :
    (((cleanupHost now host).metrics.lookup name).isSome ↔ ∃ metric, host.metrics.lookup name = some metric ∧
      (metric.dmax = 0 ∨ ∃ last, lastTime (Event.isAbout key name) events = some last ∧
        now - last ≤ metric.dmax.toNat * aprUsecPerSec)) ↔ metric.Agrees now (host.gmetrics.lookup name) := by
  have hlast := (h.timed key host hhost).metric name metric hmetric
  have hheard : metric.lastHeardFrom ≤ now := by
    apply le_trans _ (ht _ (lastTime_mem hlast))
    cases host.gmetrics.lookup name with
    | none => exact le_refl _
    | some v => exact le_max_left ..
  have hfresh : ((cleanupHost now host).metrics.lookup name).isSome ↔ metric.stale now = false := by
    rw [cleanupHost_metrics, hmetric, Option.elim_some]
    split
    · rename_i hstale
      simp [hstale]
    · rename_i hstale
      simp [hstale]
  rw [hfresh, ← metric.fresh_iff_agrees _ hheard, hmetric]
  simp only [Option.some.injEq, exists_eq_left', hlast]

theorem metricsRight_iff (h : Tracked hostDmax events hosts) (ht : ∀ t ∈ events.map Event.time, t ≤ now) :
    MetricsRight events now hosts (cleanupData now hosts hostDmax) ↔
      ∀ key host, hosts.lookup key = some host → host.stale now hostDmax = false → ∀ name metric,
        host.metrics.lookup name = some metric → metric.Agrees now (host.gmetrics.lookup name) := by
  constructor
  · intro hright key host hhost hfresh name metric hmetric
    apply (metricRight_iff h ht hhost hmetric).mp
    exact hright key host _ hhost (cleanupData_eq_some.mpr ⟨host, hhost, hfresh, rfl⟩) name
  · intro hagrees key host host' hhost hhost' name
    obtain ⟨host₁, hhost₁, hfresh, rfl⟩ := cleanupData_eq_some.mp hhost'
    obtain rfl : host = host₁ := Option.some.inj (hhost.symm.trans hhost₁)
    cases hmetric : host.metrics.lookup name with
    | none => simp [cleanupHost_metrics, hmetric]
    | some metric =>
      have hright := (metricRight_iff h ht hhost hmetric).mpr (hagrees key host hhost hfresh name metric hmetric)
      rwa [hmetric] at hright

theorem cleanupRight_iff {e : Event} (htimes : (events ++ [e]).Pairwise fun a b => a.time ≤ b.time) :
    CleanupRight hostDmax events e ↔ CleanupAgrees hostDmax events e := by
  obtain ⟨hbefore, -, hlast⟩ := List.pairwise_append.mp htimes
  have htracked := tracked hostDmax hbefore
  cases e with
  | message => rfl
  | cleanup now =>
    have ht : ∀ t ∈ events.map Event.time, t ≤ now := by
      intro t ht
      obtain ⟨e, he, rfl⟩ := List.mem_map.mp ht
      exact hlast e he _ (List.mem_singleton_self _)
    constructor
    · rintro ⟨-, hmetrics, -⟩
      exact (metricsRight_iff htracked ht).mp hmetrics
    · intro hagrees
      exact ⟨hostsRight htracked ht, (metricsRight_iff htracked ht).mpr hagrees, halvesRight _⟩

/-- Every cleanup of a run is right exactly if at each of them the metadata are as fresh as the values, or both are
stale. -/
theorem cleanups_right (hostDmax : Int32) (events : List Event)
    (htimes : events.Pairwise fun a b => a.time ≤ b.time) :
    Before (CleanupRight hostDmax) events ↔ Before (CleanupAgrees hostDmax) events := by
  have hpre : ∀ pre e post, events = pre ++ e :: post →
      (CleanupRight hostDmax pre e ↔ CleanupAgrees hostDmax pre e) := by
    rintro pre e post rfl
    apply cleanupRight_iff
    rw [List.append_cons] at htimes
    exact (List.pairwise_append.mp htimes).1
  constructor
  · intro h pre e post hl
    exact (hpre pre e post hl).mp (h pre e post hl)
  · intro h pre e post hl
    exact (hpre pre e post hl).mpr (h pre e post hl)

def loadOne : MetricId where
  host := "node1"
  name := "load_one"
  spoof := false

/-- Metadata, and a value every 9 seconds. -/
def valuesOnly : List Event :=
  [.message 0 "10.0.0.1" (.full loadOne 10), .message 9000000 "10.0.0.1" (.value loadOne),
    .cleanup 9000000, .message 15000000 "10.0.0.1" (.value loadOne)]

theorem cleanups_right_valuesOnly :
    Before (CleanupRight 0) valuesOnly ↔ Before (CleanupAgrees 0) valuesOnly :=
  cleanups_right 0 valuesOnly (by decide)

theorem hostsAfter_valuesOnly : ∃ host, (hostsAfter 0 valuesOnly).lookup "10.0.0.1" = some host ∧
    host.metrics.lookup "load_one" = some ⟨10, 0⟩ ∧ host.gmetrics.lookup "load_one" = some 15000000 :=
  ⟨_, rfl, rfl, rfl⟩

/-- A metric whose values still come is removed. -/
theorem live_metric_removed : ¬ ∀ (hostDmax : Int32) (events : List Event),
    (events.Pairwise fun a b => a.time ≤ b.time) → Before (CleanupRight hostDmax) events := by
  intro h
  have hright : CleanupRight 0 valuesOnly (.cleanup 16000000) :=
    h 0 (valuesOnly ++ [.cleanup 16000000]) (by decide) valuesOnly _ [] rfl
  obtain ⟨host, hhost, hmetric, hvalue⟩ := hostsAfter_valuesOnly
  have hagrees := (cleanupRight_iff (by decide)).mp hright _ host hhost rfl _ _ hmetric
  rw [hvalue] at hagrees
  revert hagrees
  simp [Metadata.Agrees, aprUsecPerSec]

end Colama.Ganglia

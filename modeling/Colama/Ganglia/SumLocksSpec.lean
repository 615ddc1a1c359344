import Colama.Ganglia.SumLocks

namespace Colama.Ganglia

open Lib.Locks

variable {scalable : Bool} {s : XmlData} {held : Finset (Option Mutex)} {p q : Place} {c : Call}

@[simp] theorem openSource_gridDepth (name : String) : (openSource s name).2.gridDepth = s.gridDepth := by
  unfold openSource
  split <;> rfl

@[simp] theorem openSource_hostAlive (name : String) : (openSource s name).2.hostAlive = s.hostAlive := by
  unfold openSource
  split <;> rfl

theorem openSource_run (name : String) :
    run held (openSource s name).1 =
      if (openSource s name).2.sumFinished ∈ held then none
      else some (insert (openSource s name).2.sumFinished held) := by
  unfold openSource
  split
  · by_cases h : some s.mutexes ∈ held
    · simp [run_lock_held, h]
    · simp [run_lock, h]
  · rename_i m _
    by_cases h : some m ∈ held
    · simp [run_lock_held, h]
    · simp [run_lock, run_use, h]

theorem openSource_run_empty (name : String) :
    run ∅ (openSource s name).1 = some {(openSource s name).2.sumFinished} := by
  simp [openSource_run]

theorem endCluster_gridDepth : (endCluster s).2.gridDepth = s.gridDepth := by
  unfold endCluster
  split
  · split <;> rfl
  · rfl

@[simp] theorem endCluster_hostAlive : (endCluster s).2.hostAlive = s.hostAlive := by
  unfold endCluster
  split
  · split <;> rfl
  · rfl

theorem endCluster_sumFinished : (endCluster s).2.sumFinished = s.sumFinished := by
  unfold endCluster
  split
  · split <;> rfl
  · rfl

theorem hostAlive_call (c : Call) : (s.call scalable c).2.hostAlive = c.alive s.hostAlive := by
  cases c with
  | start el =>
    cases el with
    | grid name =>
      simp only [XmlData.call, start, startGrid, Call.alive]
      split
      · rfl
      · split <;> simp
    | cluster name =>
      simp only [XmlData.call, start, startCluster, Call.alive]
      split <;> simp
    | host alive => rfl
    | metric type =>
      simp only [XmlData.call, start, startMetric, Call.alive]
      split
      · rfl
      · split <;> rfl
    | metrics =>
      simp only [XmlData.call, start, startMetrics, Call.alive]
      split <;> rfl
    | other => rfl
  | finish tag =>
    cases tag with
    | grid =>
      simp only [XmlData.call, finish, Call.alive, endCluster_hostAlive, endGrid]
      split <;> rfl
    | cluster => simp [XmlData.call, finish, Call.alive]
    | other => rfl

@[simp] theorem Place.finish_grid_cluster (inner : ℕ) : (Place.grid inner).finish .cluster = some (.grid inner) := by
  cases inner <;> rfl

@[simp] theorem Place.finish_other (p : Place) : p.finish .other = some p := by
  rcases p with _ | _ | _ | _ <;> try rfl
  rename_i inner
  cases inner <;> rfl

/-- The mutexes that are held at a place. -/
inductive Stands (scalable : Bool) (s : XmlData) : Finset (Option Mutex) → Place → Prop
  | outside : s.gridDepth = 0 → Stands scalable s ∅ .outside
  | cluster : s.gridDepth = 0 → Stands scalable s {s.sumFinished} .cluster
  | grid (inner : ℕ) : scalable = true → s.gridDepth = inner + 1 → Stands scalable s {s.sumFinished} (.grid inner)
  | left : scalable = true → 0 < s.gridDepth → Stands scalable s ∅ .left

/-- The source of the buffer is open where its mutex is held. -/
theorem Stands.mem_iff (h : Stands scalable s held p) : s.sumFinished ∈ held ↔ p.Holds = true := by
  cases h <;> simp [Place.Holds]

theorem Stands.congr (h : Stands scalable s held p) {t : XmlData} (hdepth : t.gridDepth = s.gridDepth)
    (hsource : t.sumFinished = s.sumFinished) : Stands scalable t held p := by
  cases h with
  | outside hd => exact .outside (hdepth.trans hd)
  | cluster hd => exact hsource ▸ .cluster (hdepth.trans hd)
  | grid inner hs hd => exact hsource ▸ .grid inner hs (hdepth.trans hd)
  | left hs hd => exact .left hs (hdepth ▸ hd)

/-- A call keeps the mutexes to the place that it leads to. -/
def Keeps (scalable : Bool) (s : XmlData) (held : Finset (Option Mutex)) (c : Call) (q : Place) : Prop :=
  ∃ held', run held (s.call scalable c).1 = some held' ∧ Stands scalable (s.call scalable c).2 held' q

/-- Some mutex is held that is not that of the source in the buffer. -/
def Stranded (s : XmlData) (held : Finset (Option Mutex)) : Prop := ∃ m ∈ held, m ≠ s.sumFinished

/-- A call breaks the discipline, or leaves behind a mutex that is held. -/
def Breaks (scalable : Bool) (s : XmlData) (held : Finset (Option Mutex)) (c : Call) : Prop :=
  ∀ held', run held (s.call scalable c).1 = some held' → Stranded (s.call scalable c).2 held'

theorem breaks_of_none (h : run held (s.call scalable c).1 = none) : Breaks scalable s held c := by
  intro held' heq
  rw [h] at heq
  cases heq

/-- A source that is opened while another one is strands the mutex of the first. -/
theorem openSource_stranded {name : String} {m : Option Mutex} {held' : Finset (Option Mutex)} (hm : m ∈ held)
    (h : run held (openSource s name).1 = some held') : m ∈ held' ∧ m ≠ (openSource s name).2.sumFinished := by
  rw [openSource_run] at h
  split at h
  · cases h
  · rename_i hnew
    cases h
    exact ⟨Finset.mem_insert_of_mem hm, fun heq => hnew (heq ▸ hm)⟩

theorem startGrid_keeps (h : Stands scalable s held p) {alive : Bool} {name : String}
    (hq : p.start scalable alive (.grid name) = some q) : Keeps scalable s held (.start (.grid name)) q := by
  unfold Keeps XmlData.call start startGrid XmlData.authorityMode
  cases h with
  | outside hdepth =>
    cases scalable with
    | false =>
      cases hq
      exact ⟨∅, rfl, .outside hdepth⟩
    | true =>
      cases hq
      simp only [Bool.not_true, Bool.false_eq_true, if_false, hdepth, decide_true, if_true, openSource_run_empty]
      exact ⟨_, rfl, .grid 0 rfl rfl⟩
  | cluster hdepth =>
    cases scalable with
    | false =>
      cases hq
      exact ⟨_, rfl, .cluster hdepth⟩
    | true => cases hq
  | grid inner hs hdepth =>
    cases hq
    have hne : s.gridDepth ≠ 0 := by omega
    simp only [hs, Bool.not_true, Bool.false_eq_true, if_false, hne, decide_false]
    exact ⟨_, rfl, .grid (inner + 1) rfl (by simp [hdepth])⟩
  | left hs hdepth =>
    cases hq
    have hne : s.gridDepth ≠ 0 := by omega
    simp only [hs, Bool.not_true, Bool.false_eq_true, if_false, hne, decide_false]
    exact ⟨_, rfl, .left rfl (by simp; omega)⟩

theorem startGrid_breaks (h : Stands scalable s held p) {alive : Bool} {name : String}
    (hn : p.start scalable alive (.grid name) = none) : Breaks scalable s held (.start (.grid name)) := by
  cases h with
  | outside hdepth => cases hn
  | cluster hdepth =>
    cases scalable with
    | false => cases hn
    | true =>
      intro held' hrun
      simp only [XmlData.call, start, startGrid, XmlData.authorityMode, hdepth, Bool.not_true, Bool.false_eq_true,
        if_false, decide_true, if_true] at hrun ⊢
      exact ⟨_, openSource_stranded (Finset.mem_singleton_self _) hrun⟩
  | grid inner hs hdepth => cases hn
  | left hs hdepth => cases hn

theorem startCluster_keeps (h : Stands scalable s held p) {alive : Bool} {name : String}
    (hq : p.start scalable alive (.cluster name) = some q) : Keeps scalable s held (.start (.cluster name)) q := by
  unfold Keeps XmlData.call start startCluster XmlData.authorityMode
  cases h with
  | outside hdepth =>
    cases hq
    simp only [hdepth, decide_true, Bool.not_true, Bool.false_eq_true, if_false, openSource_run_empty]
    exact ⟨_, rfl, .cluster (by simp [hdepth])⟩
  | cluster hdepth => cases hq
  | grid inner hs hdepth =>
    cases hq
    have hne : s.gridDepth ≠ 0 := by omega
    simp only [hne, decide_false, Bool.not_false, if_true]
    exact ⟨_, rfl, .grid inner hs hdepth⟩
  | left hs hdepth =>
    cases hq
    have hne : s.gridDepth ≠ 0 := by omega
    simp only [hne, decide_false, Bool.not_false, if_true]
    exact ⟨_, rfl, .left hs hdepth⟩

theorem startCluster_breaks (h : Stands scalable s held p) {alive : Bool} {name : String}
    (hn : p.start scalable alive (.cluster name) = none) : Breaks scalable s held (.start (.cluster name)) := by
  cases h with
  | outside hdepth => cases hn
  | cluster hdepth =>
    intro held' hrun
    simp only [XmlData.call, start, startCluster, XmlData.authorityMode, hdepth, decide_true, Bool.not_true,
      Bool.false_eq_true, if_false] at hrun ⊢
    exact ⟨_, openSource_stranded (Finset.mem_singleton_self _) hrun⟩
  | grid inner hs hdepth => cases hn
  | left hs hdepth => cases hn

/-- An access to the sums of the source is in order where its mutex is held. -/
theorem use_keeps (h : Stands scalable s held p) (hholds : p.Holds = true)
    (hcall : s.call scalable c = ([.use s.sumFinished], s)) : Keeps scalable s held c p := by
  refine ⟨held, ?_, ?_⟩
  · rw [hcall, run_use (h.mem_iff.mpr hholds), run_nil]
  · rwa [hcall]

theorem use_breaks (h : Stands scalable s held p) (hfree : p.Holds = false)
    (hcall : s.call scalable c = ([.use s.sumFinished], s)) : Breaks scalable s held c := by
  apply breaks_of_none
  have hnot : s.sumFinished ∉ held := by simp [h.mem_iff, hfree]
  rw [hcall, run_use_free hnot]

theorem skip_keeps (h : Stands scalable s held p) (hcall : s.call scalable c = ([], s)) :
    Keeps scalable s held c p := by
  refine ⟨held, ?_, ?_⟩
  · rw [hcall, run_nil]
  · rwa [hcall]

theorem startMetric_call (type : Option TypeTag) :
    s.call scalable (.start (.metric type)) =
      if s.hostAlive && doSummary type then ([.use s.sumFinished], s) else ([], s) := by
  cases halive : s.hostAlive <;> simp [XmlData.call, start, startMetric, halive]

theorem startMetrics_call :
    s.call scalable (.start .metrics) = if scalable then ([.use s.sumFinished], s) else ([], s) := by
  cases scalable <;> rfl

theorem start_keeps (h : Stands scalable s held p) {el : Start} (hq : p.start scalable s.hostAlive el = some q) :
    Keeps scalable s held (.start el) q := by
  cases el with
  | grid name => exact startGrid_keeps h hq
  | cluster name => exact startCluster_keeps h hq
  | host alive =>
    have hsame : q = p := by cases p <;> exact (Option.some.inj hq).symm
    rw [hsame]
    exact ⟨held, rfl, h.congr rfl rfl⟩
  | metric type =>
    have hcall := @startMetric_call scalable s type
    have hstart : p.start scalable s.hostAlive (.metric type) =
        if s.hostAlive && doSummary type && !p.Holds then none else some p := by cases p <;> rfl
    rw [hstart] at hq
    cases hsum : s.hostAlive && doSummary type with
    | false =>
      simp only [hsum, Bool.false_and, Bool.false_eq_true, if_false] at hq hcall
      exact Option.some.inj hq ▸ skip_keeps h hcall
    | true =>
      cases hholds : p.Holds with
      | false => simp [hsum, hholds] at hq
      | true =>
        simp only [hsum, hholds, Bool.not_true, Bool.and_false, Bool.false_eq_true, if_false, if_true] at hq hcall
        exact Option.some.inj hq ▸ use_keeps h hholds hcall
  | metrics =>
    have hcall := @startMetrics_call scalable s
    have hstart : p.start scalable s.hostAlive .metrics = if scalable && !p.Holds then none else some p := by
      cases p <;> rfl
    rw [hstart] at hq
    cases scalable with
    | false => exact Option.some.inj hq ▸ skip_keeps h hcall
    | true =>
      cases hholds : p.Holds with
      | false => simp [hholds] at hq
      | true =>
        simp only [hholds, Bool.not_true, Bool.and_false, Bool.false_eq_true, if_false] at hq
        exact Option.some.inj hq ▸ use_keeps h hholds hcall
  | other =>
    have hsame : q = p := by cases p <;> exact (Option.some.inj hq).symm
    exact hsame ▸ skip_keeps h rfl

theorem start_breaks (h : Stands scalable s held p) {el : Start} (hn : p.start scalable s.hostAlive el = none) :
    Breaks scalable s held (.start el) := by
  cases el with
  | grid name => exact startGrid_breaks h hn
  | cluster name => exact startCluster_breaks h hn
  | host alive => cases p <;> cases hn
  | metric type =>
    have hcall := @startMetric_call scalable s type
    have hstart : p.start scalable s.hostAlive (.metric type) =
        if s.hostAlive && doSummary type && !p.Holds then none else some p := by cases p <;> rfl
    have hsum : (s.hostAlive && doSummary type) = true ∧ p.Holds = false := by simpa [hstart, and_assoc] using hn
    rw [if_pos hsum.1] at hcall
    exact use_breaks h hsum.2 hcall
  | metrics =>
    have hcall := @startMetrics_call scalable s
    have hstart : p.start scalable s.hostAlive .metrics = if scalable && !p.Holds then none else some p := by
      cases p <;> rfl
    have hsum : scalable = true ∧ p.Holds = false := by simpa [hstart] using hn
    rw [if_pos hsum.1] at hcall
    exact use_breaks h hsum.2 hcall
  | other => cases p <;> cases hn

/-- An end of a GRID unlocks the mutex of the source, and once more if the end makes the parser the authority. -/
theorem endGrid_call :
    (s.call scalable (.finish .grid)).1 =
      if (endGrid scalable s).2.authorityMode then [.unlock s.sumFinished, .unlock s.sumFinished]
      else [.unlock s.sumFinished] := by
  have hsource : (endGrid scalable s).2.sumFinished = s.sumFinished := by
    unfold endGrid
    split <;> rfl
  have hfirst : (endGrid scalable s).1 = [.unlock s.sumFinished] := rfl
  simp only [XmlData.call, finish, endCluster, hfirst]
  split
  · simp [hsource]
  · simp

theorem finish_keeps (h : Stands scalable s held p) {tag : Tag} (hq : p.finish tag = some q) :
    Keeps scalable s held (.finish tag) q := by
  cases tag with
  | grid =>
    cases h with
    | outside hdepth => cases hq
    | cluster hdepth => cases hq
    | left hs hdepth => cases hq
    | grid inner hs hdepth =>
      cases inner with
      | zero => cases hq
      | succ inner =>
        cases hq
        have hleft : (endGrid scalable s).2.gridDepth = inner + 1 := by simp [endGrid, hs, hdepth]
        have hnot : (endGrid scalable s).2.authorityMode = false := by
          simp only [XmlData.authorityMode, hleft, decide_eq_false_iff_not]
          omega
        refine ⟨∅, ?_, .left hs ?_⟩
        · simp [endGrid_call, hnot, run_unlock, Finset.erase_singleton]
        · simp only [XmlData.call, finish, endCluster_gridDepth, hleft]
          omega
  | cluster =>
    cases h with
    | outside hdepth => cases hq
    | cluster hdepth =>
      cases hq
      refine ⟨∅, ?_, .outside ?_⟩
      · simp [XmlData.call, finish, endCluster, XmlData.authorityMode, hdepth, run_unlock, Finset.erase_singleton]
      · simp [XmlData.call, finish, endCluster_gridDepth, hdepth]
    | grid inner hs hdepth =>
      cases (Place.finish_grid_cluster inner).symm.trans hq
      have hne : s.gridDepth ≠ 0 := by omega
      exact skip_keeps (.grid inner hs hdepth) (by simp [XmlData.call, finish, endCluster, XmlData.authorityMode, hne])
    | left hs hdepth =>
      cases hq
      have hne : s.gridDepth ≠ 0 := by omega
      exact skip_keeps (.left hs hdepth) (by simp [XmlData.call, finish, endCluster, XmlData.authorityMode, hne])
  | other =>
    cases p.finish_other.symm.trans hq
    exact skip_keeps h rfl

/-- In scalable mode no GRID ends in a CLUSTER that is not in a GRID. -/
theorem finish_breaks (h : Stands scalable s held p) {tag : Tag} (hn : p.finish tag = none)
    (hopen : scalable = true → p = .cluster → tag ≠ .grid) : Breaks scalable s held (.finish tag) := by
  apply breaks_of_none
  cases tag with
  | grid =>
    cases h with
    | outside hdepth =>
      rw [endGrid_call]
      split <;> exact run_unlock_free (by simp)
    | cluster hdepth =>
      cases scalable with
      | true => exact absurd rfl (hopen rfl rfl)
      | false => simp [endGrid_call, endGrid, XmlData.authorityMode, hdepth, run_unlock, run_unlock_free]
    | grid inner hs hdepth =>
      cases inner with
      | succ inner => cases hn
      | zero => simp [endGrid_call, endGrid, XmlData.authorityMode, hs, hdepth, run_unlock, run_unlock_free]
    | left hs hdepth =>
      rw [endGrid_call]
      split <;> exact run_unlock_free (by simp)
  | cluster =>
    cases h with
    | outside hdepth => simp [XmlData.call, finish, endCluster, XmlData.authorityMode, hdepth, run_unlock_free]
    | cluster hdepth => cases hn
    | grid inner hs hdepth => cases (Place.finish_grid_cluster inner).symm.trans hn
    | left hs hdepth => cases hn
  | other => cases p.finish_other.symm.trans hn

/-- A mutex that is stranded is not unlocked any more. -/
theorem Stranded.call (h : Stranded s held) (c : Call) {held' : Finset (Option Mutex)}
    (hrun : run held (s.call scalable c).1 = some held') : Stranded (s.call scalable c).2 held' := by
  obtain ⟨m, hm, hne⟩ := h
  have huse : ∀ {t : XmlData}, run held [.use s.sumFinished] = some held' → t.sumFinished = s.sumFinished →
      Stranded t held' := by
    intro t hu ht
    by_cases hmem : s.sumFinished ∈ held
    · rw [run_use hmem, run_nil] at hu
      cases hu
      exact ⟨m, hm, ht ▸ hne⟩
    · simp [run_use_free hmem] at hu
  have hunlock : ∀ {t : XmlData} {later}, run held (.unlock s.sumFinished :: later) = some held' →
      later = [] ∨ later = [.unlock s.sumFinished] → t.sumFinished = s.sumFinished → Stranded t held' := by
    intro t later hu hlater ht
    by_cases hmem : s.sumFinished ∈ held
    · rw [run_unlock hmem] at hu
      rcases hlater with rfl | rfl
      · cases hu
        exact ⟨m, Finset.mem_erase.mpr ⟨hne, hm⟩, ht ▸ hne⟩
      · simp [run_unlock_free] at hu
    · simp [run_unlock_free hmem] at hu
  cases c with
  | start el =>
    cases el with
    | grid name =>
      simp only [XmlData.call, start, startGrid] at hrun ⊢
      split_ifs at hrun ⊢
      · cases hrun
        exact ⟨m, hm, hne⟩
      · exact ⟨m, openSource_stranded hm hrun⟩
      · cases hrun
        exact ⟨m, hm, hne⟩
    | cluster name =>
      simp only [XmlData.call, start, startCluster] at hrun ⊢
      split_ifs at hrun ⊢
      · cases hrun
        exact ⟨m, hm, hne⟩
      · exact ⟨m, openSource_stranded hm hrun⟩
    | host alive =>
      cases hrun
      exact ⟨m, hm, hne⟩
    | metric type =>
      rw [startMetric_call] at hrun ⊢
      split_ifs at hrun ⊢
      · exact huse hrun rfl
      · cases hrun
        exact ⟨m, hm, hne⟩
    | metrics =>
      rw [startMetrics_call] at hrun ⊢
      split_ifs at hrun ⊢
      · exact huse hrun rfl
      · cases hrun
        exact ⟨m, hm, hne⟩
    | other =>
      cases hrun
      exact ⟨m, hm, hne⟩
  | finish tag =>
    cases tag with
    | grid =>
      have hsource : (s.call scalable (.finish .grid)).2.sumFinished = s.sumFinished := by
        simp only [XmlData.call, finish, endCluster_sumFinished, endGrid]
        split <;> rfl
      rw [endGrid_call] at hrun
      split_ifs at hrun
      · exact hunlock hrun (.inr rfl) hsource
      · exact hunlock hrun (.inl rfl) hsource
    | cluster =>
      have hsource : (s.call scalable (.finish .cluster)).2.sumFinished = s.sumFinished := endCluster_sumFinished
      by_cases hauth : s.authorityMode = true
      · have hcall : (s.call scalable (.finish .cluster)).1 = [.unlock s.sumFinished] := by
          simp [XmlData.call, finish, endCluster, hauth]
        rw [hcall] at hrun
        exact hunlock hrun (.inl rfl) hsource
      · have hcall : (s.call scalable (.finish .cluster)).1 = [] := by
          simp [XmlData.call, finish, endCluster, hauth]
        rw [hcall] at hrun
        cases hrun
        exact ⟨m, hm, hsource ▸ hne⟩
    | other =>
      cases hrun
      exact ⟨m, hm, hne⟩

theorem run_trace_cons (cs : List Call) :
    run held (s.trace scalable (c :: cs)) =
      (run held (s.call scalable c).1).bind fun h => run h ((s.call scalable c).2.trace scalable cs) := by
  rw [XmlData.trace, run_append]

theorem Stranded.run_ne (h : Stranded s held) (cs : List Call) : run held (s.trace scalable cs) ≠ some ∅ := by
  induction cs generalizing s held with
  | nil =>
    obtain ⟨m, hm, -⟩ := h
    intro heq
    cases heq
    simp at hm
  | cons c cs ih =>
    rw [run_trace_cons]
    cases hrun : run held (s.call scalable c).1 with
    | none => simp
    | some held' => exact ih (h.call c hrun)

theorem Breaks.run_ne (h : Breaks scalable s held c) (cs : List Call) :
    run held (s.trace scalable (c :: cs)) ≠ some ∅ := by
  rw [run_trace_cons]
  cases hrun : run held (s.call scalable c).1 with
  | none => simp
  | some held' => exact (h held' hrun).run_ne cs

/-- The calls for a document that may be cut off, of which some elements are open. -/
def Nested : List Tag → List Call → Prop
  | _, [] => True
  | openTags, .start el :: cs => Nested (el.tag :: openTags) cs
  | [], .finish _ :: _ => False
  | t :: openTags, .finish tag :: cs => tag = t ∧ Nested openTags cs

theorem Nested.take {openTags : List Tag} {calls : List Call} (h : Nested openTags calls) (n : ℕ) :
    Nested openTags (calls.take n) := by
  induction calls generalizing openTags n with
  | nil => simp [Nested]
  | cons c cs ih =>
    cases n with
    | zero => simp [Nested]
    | succ n =>
      cases c with
      | start el => exact @ih (el.tag :: openTags) h n
      | finish tag =>
        cases openTags with
        | nil => exact h
        | cons t openTags => exact ⟨h.1, ih h.2 n⟩

mutual

theorem Element.nested_calls (e : Element) {openTags : List Tag} {rest : List Call} (h : Nested openTags rest) :
    Nested openTags (e.calls ++ rest) := by
  cases e with
  | mk el children =>
    rw [Element.calls, List.cons_append, List.cons_append, List.append_assoc]
    exact @nested_callsOf children (el.tag :: openTags) _ ⟨rfl, h⟩

theorem nested_callsOf (es : List Element) {openTags : List Tag} {rest : List Call} (h : Nested openTags rest) :
    Nested openTags (callsOf es ++ rest) := by
  cases es with
  | nil => exact h
  | cons e es =>
    rw [callsOf, List.append_assoc]
    exact e.nested_calls (nested_callsOf es h)

end

/-- A place at which no source of a GRID is open. -/
def Place.Shallow (p : Place) : Prop := p = .outside ∨ p = .cluster

theorem Place.shallow_start {alive : Bool} {el : Start} (hq : p.start true alive el = some q) (h : q.Shallow) :
    p.Shallow ∧ el.tag ≠ .grid := by
  cases p with
  | outside =>
    refine ⟨.inl rfl, ?_⟩
    cases el with
    | grid name =>
      cases hq
      simp [Place.Shallow] at h
    | _ => nofun
  | cluster =>
    refine ⟨.inr rfl, ?_⟩
    cases el with
    | grid name => cases hq
    | _ => nofun
  | grid inner =>
    have hq' : q = .grid (inner + 1) ∨ q = .grid inner := by
      cases el <;> simp_all [Place.start, Place.Holds]
    rcases hq' with rfl | rfl <;> simp [Place.Shallow] at h
  | left =>
    have hq' : q = .left := by
      cases el <;> simp_all [Place.start, Place.Holds]
    rw [hq'] at h
    simp [Place.Shallow] at h

theorem Place.shallow_finish {tag : Tag} (hq : p.finish tag = some q) (h : q.Shallow) : p.Shallow := by
  cases p with
  | outside => exact .inl rfl
  | cluster => exact .inr rfl
  | grid inner =>
    cases tag with
    | grid =>
      cases inner with
      | zero => cases hq
      | succ inner =>
        cases hq
        simp [Place.Shallow] at h
    | cluster =>
      cases (Place.finish_grid_cluster inner).symm.trans hq
      exact h
    | other =>
      cases (Place.finish_other _).symm.trans hq
      exact h
  | left =>
    cases tag with
    | grid => cases hq
    | _ =>
      cases hq
      exact h

theorem call_keeps (h : Stands scalable s held p) (hq : p.call scalable s.hostAlive c = some q) :
    Keeps scalable s held c q := by
  cases c with
  | start el => exact start_keeps h hq
  | finish tag => exact finish_keeps h hq

theorem call_breaks (h : Stands scalable s held p) (hn : p.call scalable s.hostAlive c = none)
    (hopen : scalable = true → p.Shallow → c ≠ .finish .grid) : Breaks scalable s held c := by
  cases c with
  | start el => exact start_breaks h hn
  | finish tag =>
    refine finish_breaks h hn fun hs hp htag => ?_
    exact hopen hs (.inr hp) (congrArg Call.finish htag)

/-- The tags that are open after a call, in a document. -/
theorem Nested.call {openTags : List Tag} {cs : List Call} (h : Nested openTags (c :: cs))
    (hq : p.call scalable s.hostAlive c = some q) (hopen : scalable = true → p.Shallow → .grid ∉ openTags) :
    ∃ openTags', Nested openTags' cs ∧ (scalable = true → q.Shallow → .grid ∉ openTags') := by
  cases c with
  | start el =>
    refine ⟨el.tag :: openTags, h, fun hs hshallow => ?_⟩
    subst hs
    have hp := Place.shallow_start hq hshallow
    simp [hopen rfl hp.1, hp.2.symm]
  | finish tag =>
    cases openTags with
    | nil => exact absurd h id
    | cons t openTags =>
      refine ⟨openTags, h.2, fun hs hshallow hmem => ?_⟩
      exact hopen hs (Place.shallow_finish hq hshallow) (List.mem_cons_of_mem _ hmem)

theorem orderly_iff {openTags : List Tag} {calls : List Call} (h : Stands scalable s held p)
    (hnested : Nested openTags calls) (hopen : scalable = true → p.Shallow → .grid ∉ openTags) :
    run held (s.trace scalable calls) = some ∅ ↔ Orderly scalable p s.hostAlive calls := by
  induction calls generalizing s held p openTags with
  | nil => cases h <;> simp [XmlData.trace, Orderly, Place.Holds]
  | cons c cs ih =>
    rw [Orderly]
    cases hcall : p.call scalable s.hostAlive c with
    | none =>
      have hbreaks : Breaks scalable s held c := by
        apply call_breaks h hcall
        rintro hs hshallow rfl
        cases openTags with
        | nil => exact hnested
        | cons t openTags =>
          apply hopen hs hshallow
          rw [← hnested.1]
          exact List.mem_cons_self
      refine iff_of_false (hbreaks.run_ne cs) ?_
      rintro ⟨q, hq, -⟩
      cases hq
    | some q =>
      obtain ⟨held', hrun, hstands⟩ := call_keeps h hcall
      obtain ⟨openTags', hnested', hopen'⟩ := hnested.call hcall hopen
      rw [run_trace_cons, hrun, Option.bind_some, ih hstands hnested' hopen', hostAlive_call]
      simp

/-- The mutexes of the sums are locked and unlocked in turn, held while sums are made and free at the end, if and
only if the document keeps to CLUSTERs and ends outside of them. -/
theorem sums_locked (scalable : Bool) (root : String → Option Mutex) (mutexes : Mutex) (doc : Element) (n : ℕ) :
    Disciplined (processXml scalable root mutexes (doc.calls.take n)) ↔
      Orderly scalable .outside false (doc.calls.take n) := by
  have hnested : Nested [] (doc.calls.take n) := by
    apply Nested.take
    simpa using @Element.nested_calls doc [] [] trivial
  exact orderly_iff (.outside rfl) hnested fun _ _ => List.not_mem_nil

/-- An empty GRID unlocks its mutex twice. -/
theorem grid_unlocked_twice :
    ¬ ∀ (scalable : Bool) (root : String → Option Mutex) (mutexes : Mutex) (doc : Element) (n : ℕ),
      Disciplined (processXml scalable root mutexes (doc.calls.take n)) := by
  intro h
  have hrun := h true (fun _ => none) 0 (.mk (.grid "g") []) 2
  exact absurd hrun (by unfold Disciplined; decide)

end Colama.Ganglia

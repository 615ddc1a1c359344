import Colama.Ganglia.HashSpec

namespace Colama.Ganglia.Gmetad

open Lib

/-- Of a `Metric_t`, what the cleanup reads of it. -/
structure Metric where
  t0 : Int
  dmax : UInt32

structure Host where
  t0 : Int
  dmax : UInt32
  metrics : Hash Metric

/-- A source, with its hosts unless it is a grid. -/
structure Source where
  metricSummary : Hash Metric
  authority : Option (Hash Host)

/-- `born`, which is an `unsigned int`. -/
def born (t0 : Int) : Int := t0 % 2 ^ 32

def expired (now t0 : Int) (dmax : UInt32) : Bool := decide (dmax ≠ 0 ∧ now - born t0 > dmax.toNat)

/-- The walk and the deletion of the entry it stops at, from the bucket of the entry deleted last; there is no result
if the turns do not do. -/
def cleanupLoop {V : Type*} (func : Datum → V → Option Datum → Option (V × Option Datum × Bool)) :
    (turns start : Nat) → Hash V → Option (Hash V)
  | 0, _, _ => none
  | turns + 1, start, h => do
    let (h, key, stop) ← h.walkfrom start func none
    match stop, key with
    | true, some key => cleanupLoop func turns (hashval h.size key) (h.delete key).2
    | _, _ => some h

/-- Each turn but the last one deletes an entry. -/
def cleanupTable {V : Type*} (func : Datum → V → Option Datum → Option (V × Option Datum × Bool)) (h : Hash V) :
    Option (Hash V) :=
  cleanupLoop func (h.node.flatten.length + 1) 0 h

variable (now : Int)

def cleanupMetric (key : Datum) (metric : Metric) (arg : Option Datum) : Option (Metric × Option Datum × Bool) :=
  if expired now metric.t0 metric.dmax then some (metric, some key, true) else some (metric, arg, false)

def cleanupNode (key : Datum) (node : Host) (arg : Option Datum) : Option (Host × Option Datum × Bool) :=
  if expired now node.t0 node.dmax then some (node, some key, true)
  else do
    let metrics ← cleanupTable (cleanupMetric now) node.metrics
    some ({ node with metrics }, arg, false)

def cleanupSource (_ : Datum) (source : Source) (arg : Option Datum) : Option (Source × Option Datum × Bool) := do
  let metricSummary ← cleanupTable (cleanupMetric now) source.metricSummary
  match source.authority with
  | none => some ({ source with metricSummary }, arg, false)
  | some hosts => do
    let hosts ← cleanupTable (cleanupNode now) hosts
    some (⟨metricSummary, some hosts⟩, arg, false)

/-- A turn of `cleanup_thread`, for the sources of the root. -/
def cleanupThread (root : Hash Source) : Option (Hash Source) := cleanupTable (cleanupSource now) root

section Sweep

variable {V : Type*}

/-- What a function for a walk does: it stops at the entries that are to go, and makes the others clean. -/
structure Sweeps (func : Datum → V → Option Datum → Option (V × Option Datum × Bool)) (good : V → Prop) (hit : V → Bool)
    (clean : V → V) : Prop where
  stop : ∀ key v, good v → hit v = true → func key v none = some (v, some key, true)
  pass : ∀ key v, good v → hit v = false → func key v none = some (clean v, none, false)
  good_clean : ∀ v, good v → hit v = false → good (clean v)
  hit_clean : ∀ v, good v → hit v = false → hit (clean v) = false
  clean_clean : ∀ v, good v → hit v = false → clean (clean v) = clean v

def cleanBucket (clean : V → V) (b : Bucket V) : Bucket V := { b with val := clean b.val }

/-- What is left of a chain in the end. -/
def swept (hit : V → Bool) (clean : V → V) (c : List (Bucket V)) : List (Bucket V) :=
  (c.filter fun b => !hit b.val).map (cleanBucket clean)

variable {func : Datum → V → Option Datum → Option (V × Option Datum × Bool)} {good : V → Prop} {hit : V → Bool}
  {clean : V → V}

theorem swept_eq_map {c : List (Bucket V)} (h : ∀ b ∈ c, hit b.val = false) : swept hit clean c = c.map (cleanBucket clean) := by
  rw [swept, List.filter_eq_self.mpr fun b hb => by rw [h b hb]; rfl]

/-- A chain is walked to its end, or to the first entry that is to go. -/
theorem Sweeps.walkChain (hf : Sweeps func good hit clean) {c : List (Bucket V)} (hc : ∀ b ∈ c, good b.val) :
    ((∀ b ∈ c, hit b.val = false) ∧ Ganglia.walkChain func c none = some (c.map (cleanBucket clean), none, false)) ∨
    ∃ c₁ b c₂, c = c₁ ++ b :: c₂ ∧ (∀ b ∈ c₁, hit b.val = false) ∧ hit b.val = true ∧
      Ganglia.walkChain func c none = some (c₁.map (cleanBucket clean) ++ b :: c₂, some b.key, true) := by
  induction c with
  | nil => exact .inl ⟨nofun, rfl⟩
  | cons b c ih =>
    obtain ⟨hb, hc'⟩ := List.forall_mem_cons.mp hc
    rw [Ganglia.walkChain]
    cases hhit : hit b.val with
    | true =>
      refine .inr ⟨[], b, c, rfl, nofun, hhit, ?_⟩
      rw [hf.stop b.key b.val hb hhit]
      rfl
    | false =>
      rw [hf.pass b.key b.val hb hhit]
      rcases ih hc' with ⟨hnone, hwalk⟩ | ⟨c₁, b', c₂, rfl, hnone, hhit', hwalk⟩
      · refine .inl ⟨List.forall_mem_cons.mpr ⟨hhit, hnone⟩, ?_⟩
        simp only [Option.bind_eq_bind, Option.bind_some, Bool.false_eq_true, if_false, hwalk]
        rfl
      · refine .inr ⟨b :: c₁, b', c₂, rfl, List.forall_mem_cons.mpr ⟨hhit, hnone⟩, hhit', ?_⟩
        simp only [Option.bind_eq_bind, Option.bind_some, Bool.false_eq_true, if_false, hwalk]
        rfl

theorem Sweeps.walkNodes (hf : Sweeps func good hit clean) {cs : List (List (Bucket V))}
    (hcs : ∀ c ∈ cs, ∀ b ∈ c, good b.val) :
    ((∀ c ∈ cs, ∀ b ∈ c, hit b.val = false) ∧
      Ganglia.walkNodes func cs none = some (cs.map (List.map (cleanBucket clean)), none, false)) ∨
    ∃ before c₁ b c₂ after, cs = before ++ (c₁ ++ b :: c₂) :: after ∧ (∀ c ∈ before, ∀ b ∈ c, hit b.val = false) ∧
      (∀ b ∈ c₁, hit b.val = false) ∧ hit b.val = true ∧ Ganglia.walkNodes func cs none =
        some (before.map (List.map (cleanBucket clean)) ++ (c₁.map (cleanBucket clean) ++ b :: c₂) :: after,
          some b.key, true) := by
  induction cs with
  | nil => exact .inl ⟨nofun, rfl⟩
  | cons c cs ih =>
    obtain ⟨hc, hcs'⟩ := List.forall_mem_cons.mp hcs
    rw [Ganglia.walkNodes]
    rcases hf.walkChain hc with ⟨hnone, hwalk⟩ | ⟨c₁, b, c₂, rfl, hnone, hhit, hwalk⟩
    · rw [hwalk]
      rcases ih hcs' with ⟨hnone', hwalk'⟩ | ⟨before, c₁, b, c₂, after, rfl, hnone', hnone₁, hhit, hwalk'⟩
      · refine .inl ⟨List.forall_mem_cons.mpr ⟨hnone, hnone'⟩, ?_⟩
        simp only [Option.bind_eq_bind, Option.bind_some, Bool.false_eq_true, if_false, hwalk']
        rfl
      · refine .inr ⟨c :: before, c₁, b, c₂, after, rfl, List.forall_mem_cons.mpr ⟨hnone, hnone'⟩, hnone₁, hhit, ?_⟩
        simp only [Option.bind_eq_bind, Option.bind_some, Bool.false_eq_true, if_false, hwalk']
        rfl
    · rw [hwalk]
      exact .inr ⟨[], c₁, b, c₂, cs, rfl, nofun, hnone, hhit, rfl⟩

theorem removeKey_append {s : CString} {c₁ c₂ : List (Bucket V)} {b : Bucket V} (hb : b.key = s.key)
    (hproper : Proper (c₁ ++ b :: c₂)) : removeKey s.key (c₁ ++ b :: c₂) = some (b.val, c₁ ++ c₂) := by
  have hval : chainVal (c₁ ++ b :: c₂) s.key = some b.val := by
    rw [chainVal_eq_some hproper, ← hb]
    exact List.mem_append_right _ List.mem_cons_self
  have hfilter : (c₁ ++ b :: c₂).filter (fun b => decide (b.key ≠ s.key)) = c₁ ++ c₂ := by
    have hnodup := hproper.nodup
    rw [List.map_append, List.map_cons, List.nodup_append, List.nodup_cons] at hnodup
    obtain ⟨-, ⟨hnot₂, -⟩, hnot₁⟩ := hnodup
    have hkeep : ∀ c : List (Bucket V), b.key ∉ c.map Bucket.key → c.filter (fun b => decide (b.key ≠ s.key)) = c := by
      intro c hnot
      refine List.filter_eq_self.mpr fun b' hb' => decide_eq_true fun heq => hnot ?_
      exact List.mem_map.mpr ⟨b', hb', heq.trans hb.symm⟩
    rw [List.filter_append, List.filter_cons_of_neg (by simpa using hb), hkeep c₂ hnot₂, hkeep c₁]
    exact fun hmem => hnot₁ _ hmem _ List.mem_cons_self rfl
  rcases removeKey_spec hproper s with ⟨hnone, -⟩ | ⟨v, hv, hrem⟩
  · exact nomatch hnone.symm.trans hval
  · cases hval.symm.trans hv
    rw [hrem, hfilter]

/-- A chain has no other keys than another one, and in the same order. -/
def FewerKeys (c' c : List (Bucket V)) : Prop := (c'.map Bucket.key).Sublist (c.map Bucket.key)

theorem FewerKeys.refl (c : List (Bucket V)) : FewerKeys c c := List.Sublist.refl _

theorem forall₂_fewerKeys (cs : List (List (Bucket V))) : List.Forall₂ FewerKeys cs cs :=
  List.forall₂_same.mpr fun c _ => .refl c

theorem Placed.of_forall₂ {h h' : Hash V} (hp : h.Placed) (hkeys : List.Forall₂ FewerKeys h'.node h.node) :
    h'.Placed := by
  have hsize : h'.size = h.size := hkeys.length_eq
  have hchain : ∀ i, ((h'.chain i).map Bucket.key).Sublist ((h.chain i).map Bucket.key) := by
    intro i
    rw [Hash.chain, Hash.chain, List.getD_eq_getElem?_getD, List.getD_eq_getElem?_getD]
    rcases Nat.lt_or_ge i h.node.length with hi | hi
    · have hi' : i < h'.node.length := hkeys.length_eq ▸ hi
      rw [List.getElem?_eq_getElem hi, List.getElem?_eq_getElem hi']
      exact (List.forall₂_iff_get.mp hkeys).2 i hi' hi
    · rw [List.getElem?_eq_none hi, List.getElem?_eq_none (hkeys.length_eq.trans_le hi)]
  refine ⟨hsize ▸ hp.size_pos, fun i b hb => ?_, fun i => (hp.nodup i).sublist (hchain i)⟩
  obtain ⟨b', hb', heq⟩ := List.mem_map.mp ((hchain i).subset (List.mem_map_of_mem hb))
  rw [hsize, ← heq]
  exact hp.key i b' hb'

theorem chain_mid (cs before : List (List (Bucket V))) (c : List (Bucket V)) (after : List (List (Bucket V))) :
    (⟨cs ++ (before ++ c :: after)⟩ : Hash V).chain (cs.length + before.length) = c := by
  rw [Hash.chain, List.getD_eq_getElem?_getD, List.getElem?_append_right (Nat.le_add_right _ _), Nat.add_sub_cancel_left,
    List.getElem?_append_right le_rfl, Nat.sub_self]
  rfl

theorem setChain_mid (cs before : List (List (Bucket V))) (c c' : List (Bucket V)) (after : List (List (Bucket V))) :
    (⟨cs ++ (before ++ c :: after)⟩ : Hash V).setChain (cs.length + before.length) c' = ⟨cs ++ (before ++ c' :: after)⟩ := by
  rw [Hash.setChain, List.set_append_right _ _ (Nat.le_add_right _ _), Nat.add_sub_cancel_left,
    List.set_append_right _ _ le_rfl, Nat.sub_self]
  rfl

theorem map_key_cleanBucket (c : List (Bucket V)) : (c.map (cleanBucket clean)).map Bucket.key = c.map Bucket.key := by
  rw [List.map_map]
  rfl

theorem forall₂_cleanBucket (cs : List (List (Bucket V))) :
    List.Forall₂ FewerKeys (cs.map (List.map (cleanBucket clean))) cs := by
  rw [List.forall₂_map_left_iff, List.forall₂_same]
  intro c _
  rw [FewerKeys, map_key_cleanBucket]

theorem swept_append (c₁ c₂ : List (Bucket V)) : swept hit clean (c₁ ++ c₂) = swept hit clean c₁ ++ swept hit clean c₂ := by
  rw [swept, List.filter_append, List.map_append, ← swept, ← swept]

/-- What has been cleaned once stays as it is. -/
theorem Sweeps.swept_clean (hf : Sweeps func good hit clean) {c : List (Bucket V)} (hc : ∀ b ∈ c, good b.val)
    (hnone : ∀ b ∈ c, hit b.val = false) : swept hit clean (c.map (cleanBucket clean)) = c.map (cleanBucket clean) := by
  rw [swept_eq_map, List.map_map]
  · apply List.map_congr_left
    intro b hb
    rw [Function.comp_apply, cleanBucket, cleanBucket, hf.clean_clean b.val (hc b hb) (hnone b hb)]
  · intro b hb
    obtain ⟨b', hb', rfl⟩ := List.mem_map.mp hb
    exact hf.hit_clean b'.val (hc b' hb') (hnone b' hb')

/-- The entry that a walk stops at is deleted from its chain. -/
theorem delete_mid (cs before : List (List (Bucket V))) {c₁ c₂ : List (Bucket V)} {b : Bucket V}
    {after : List (List (Bucket V))} (hp : (⟨cs ++ (before ++ (c₁ ++ b :: c₂) :: after)⟩ : Hash V).Placed) :
    hashval (⟨cs ++ (before ++ (c₁ ++ b :: c₂) :: after)⟩ : Hash V).size b.key = cs.length + before.length ∧
    ((⟨cs ++ (before ++ (c₁ ++ b :: c₂) :: after)⟩ : Hash V).delete b.key).2 =
      ⟨cs ++ (before ++ (c₁ ++ c₂) :: after)⟩ := by
  have hchain := chain_mid cs before (c₁ ++ b :: c₂) after
  have hproper := hp.proper (cs.length + before.length)
  obtain ⟨hval, s, hkey⟩ := hp.key (cs.length + before.length) b (by
    rw [hchain]
    exact List.mem_append_right _ List.mem_cons_self)
  rw [hchain] at hproper
  refine ⟨hval, ?_⟩
  rw [Hash.delete, hval, hchain, hkey, removeKey_append hkey hproper]
  exact setChain_mid cs before _ _ after

/-- The loop deletes what is to go and nothing else: behind the bucket of a deleted entry nothing has been visited, and
before it nothing is left to delete. -/
theorem Sweeps.cleanupLoop (hf : Sweeps func good hit clean) {turns : Nat} (cs : List (List (Bucket V))) {rest : List (List (Bucket V))}
    (hp : (⟨cs ++ rest⟩ : Hash V).Placed) (hgood : ∀ c ∈ rest, ∀ b ∈ c, good b.val)
    (hturns : rest.flatten.countP (fun b => hit b.val) < turns) :
    Gmetad.cleanupLoop func turns cs.length ⟨cs ++ rest⟩ = some ⟨cs ++ rest.map (swept hit clean)⟩ := by
  induction turns generalizing cs rest with
  | zero => cases hturns
  | succ turns ih =>
    rw [Gmetad.cleanupLoop, Hash.walkfrom]
    dsimp only
    rw [List.take_left, List.drop_left]
    rcases hf.walkNodes hgood with ⟨hnone, hwalk⟩ | ⟨before, c₁, b, c₂, after, rfl, hnone, hnone₁, hhit, hwalk⟩
    · rw [hwalk, List.map_congr_left fun c hc => (swept_eq_map (hnone c hc)).symm]
      rfl
    · rw [hwalk]
      simp only [Option.bind_eq_bind, Option.bind_some]
      have hmid : ∀ b ∈ c₁, good b.val := fun b' hb' =>
        hgood _ (List.mem_append_right _ List.mem_cons_self) b' (List.mem_append_left _ hb')
      have hgood₂ : ∀ b ∈ c₂, good b.val := fun b' hb' =>
        hgood _ (List.mem_append_right _ List.mem_cons_self) b' (List.mem_append_right _ (List.mem_cons_of_mem _ hb'))
      have hwalked : (⟨cs ++ (before.map (List.map (cleanBucket clean)) ++
          (c₁.map (cleanBucket clean) ++ b :: c₂) :: after)⟩ : Hash V).Placed := by
        refine Placed.of_forall₂ hp (List.rel_append (forall₂_fewerKeys cs) ?_)
        refine List.rel_append (forall₂_cleanBucket before) (.cons ?_ (forall₂_fewerKeys after))
        rw [FewerKeys, List.map_append, map_key_cleanBucket, List.map_append]
      obtain ⟨hval, hdelete⟩ := delete_mid cs _ hwalked
      have hdeleted : (⟨(cs ++ before.map (List.map (cleanBucket clean))) ++
          (c₁.map (cleanBucket clean) ++ c₂) :: after⟩ : Hash V).Placed := by
        rw [List.append_assoc]
        refine Placed.of_forall₂ hwalked (List.rel_append (forall₂_fewerKeys cs) ?_)
        refine List.rel_append (forall₂_fewerKeys _) (.cons ?_ (forall₂_fewerKeys after))
        rw [FewerKeys, List.map_append, List.map_append]
        exact List.Sublist.append_left (List.sublist_cons_self _ _) _
      rw [hval, hdelete]
      have hlen : cs.length + (before.map (List.map (cleanBucket clean))).length =
          (cs ++ before.map (List.map (cleanBucket clean))).length := List.length_append.symm
      rw [hlen, ← List.append_assoc, ih _ hdeleted]
      · have hbefore : before.map (List.map (cleanBucket clean)) = before.map (swept hit clean) :=
          List.map_congr_left fun c hc => (swept_eq_map (hnone c hc)).symm
        have hhead : swept hit clean (b :: c₂) = swept hit clean c₂ := by
          rw [swept, List.filter_cons_of_neg (by rw [hhit]; exact Bool.false_ne_true), ← swept]
        rw [List.map_append, List.map_cons, List.map_cons, swept_append, swept_append, hf.swept_clean hmid hnone₁, hhead,
          swept_eq_map hnone₁, hbefore, List.append_assoc]
      · refine List.forall_mem_cons.mpr ⟨fun b' hb' => ?_, fun c hc => ?_⟩
        · rcases List.mem_append.mp hb' with hb' | hb'
          · obtain ⟨b'', hb'', rfl⟩ := List.mem_map.mp hb'
            exact hf.good_clean _ (hmid b'' hb'') (hnone₁ b'' hb'')
          · exact hgood₂ b' hb'
        · exact hgood c (List.mem_append_right _ (List.mem_cons_of_mem _ hc))
      · have hcount : (c₁.map (cleanBucket clean)).countP (fun b => hit b.val) = 0 := by
          rw [List.countP_eq_zero]
          intro b' hb'
          obtain ⟨b'', hb'', rfl⟩ := List.mem_map.mp hb'
          rw [cleanBucket, hf.hit_clean _ (hmid b'' hb'') (hnone₁ b'' hb'')]
          exact Bool.false_ne_true
        have hone : (b :: c₂).countP (fun b => hit b.val) = c₂.countP (fun b => hit b.val) + 1 := List.countP_cons_of_pos hhit
        rw [List.flatten_append, List.flatten_cons, List.countP_append, List.countP_append, List.countP_append, hone] at hturns
        rw [List.flatten_cons, List.countP_append, List.countP_append, hcount]
        omega

theorem Sweeps.swept_swept (hf : Sweeps func good hit clean) {c : List (Bucket V)} (hc : ∀ b ∈ c, good b.val) :
    swept hit clean (swept hit clean c) = swept hit clean c := by
  refine hf.swept_clean (fun b hb => hc b (List.mem_filter.mp hb).1) fun b hb => ?_
  simpa using (List.mem_filter.mp hb).2

theorem Sweeps.good_swept (hf : Sweeps func good hit clean) {c : List (Bucket V)} (hc : ∀ b ∈ c, good b.val) :
    ∀ b ∈ swept hit clean c, good b.val := by
  intro b hb
  obtain ⟨b', hb', rfl⟩ := List.mem_map.mp hb
  obtain ⟨hmem, hhit⟩ := List.mem_filter.mp hb'
  exact hf.good_clean b'.val (hc b' hmem) (by simpa using hhit)

theorem fewerKeys_swept (c : List (Bucket V)) : FewerKeys (swept hit clean c) c := by
  rw [FewerKeys, swept, map_key_cleanBucket]
  exact List.filter_sublist.map _

theorem chainVal_swept {c : List (Bucket V)} (hproper : Proper c) (key : Datum) :
    chainVal (swept hit clean c) key = (chainVal c key).bind fun v => if hit v then none else some (clean v) := by
  induction c with
  | nil => rfl
  | cons b c ih =>
    obtain ⟨-, hnot, hproper'⟩ := hproper.of_cons
    rw [chainVal_cons]
    cases hhit : hit b.val with
    | true =>
      have hhead : swept hit clean (b :: c) = swept hit clean c := by
        rw [swept, List.filter_cons_of_neg (by rw [hhit]; exact Bool.false_ne_true), ← swept]
      rw [hhead, ih hproper']
      by_cases hkey : b.key = key
      · rw [if_pos hkey, chainVal_eq_none.mpr (hkey ▸ hnot), Option.bind_some, hhit]
        rfl
      · rw [if_neg hkey]
    | false =>
      have hhead : swept hit clean (b :: c) = cleanBucket clean b :: swept hit clean c := by
        rw [swept, List.filter_cons_of_pos (by rw [hhit]; rfl), List.map_cons, ← swept]
      rw [hhead, chainVal_cons, ih hproper']
      by_cases hkey : b.key = key
      · rw [if_pos hkey, if_pos (show (cleanBucket clean b).key = key from hkey), Option.bind_some, hhit]
        rfl
      · rw [if_neg hkey, if_neg (show ¬(cleanBucket clean b).key = key from hkey)]

/-- What is left of a table in the end. -/
def sweptHash (hit : V → Bool) (clean : V → V) (h : Hash V) : Hash V where
  node := h.node.map (swept hit clean)

theorem Placed.sweptHash {h : Hash V} (hp : h.Placed) : (sweptHash hit clean h).Placed := by
  refine Placed.of_forall₂ hp ?_
  rw [Gmetad.sweptHash, List.forall₂_map_left_iff, List.forall₂_same]
  exact fun c _ => fewerKeys_swept c

theorem lookup_sweptHash {h : Hash V} (hp : h.Placed) (key : Datum) :
    (sweptHash hit clean h).lookup key = (h.lookup key).bind fun v => if hit v then none else some (clean v) := by
  have hsize : (sweptHash hit clean h).size = h.size := List.length_map _
  have hchain : ∀ i, (sweptHash hit clean h).chain i = swept hit clean (h.chain i) := by
    intro i
    rw [Hash.chain, Hash.chain, sweptHash, List.getD_eq_getElem?_getD, List.getD_eq_getElem?_getD, List.getElem?_map]
    cases h.node[i]? <;> rfl
  rw [Hash.lookup_eq, Hash.lookup_eq, Hash.get, Hash.get, hsize, hchain, chainVal_swept (hp.proper _)]

/-- Every value of a table. -/
def All (P : V → Prop) (h : Hash V) : Prop := ∀ c ∈ h.node, ∀ b ∈ c, P b.val

theorem all_iff_lookup {P : V → Prop} {h : Hash V} (hp : h.Placed) :
    All P h ↔ ∀ key v, h.lookup key = some v → P v := by
  constructor
  · intro hall key v hv
    rw [Hash.lookup_eq, ← Hash.mem_pairs hp, Hash.pairs] at hv
    simp only [List.mem_flatMap, List.mem_map, Prod.mk.injEq] at hv
    obtain ⟨c, hc, b, hb, -, rfl⟩ := hv
    exact hall c hc b hb
  · intro hall c hc b hb
    refine hall b.key b.val ?_
    rw [Hash.lookup_eq, ← Hash.mem_pairs hp, Hash.pairs]
    exact List.mem_flatMap.mpr ⟨c, hc, List.mem_map.mpr ⟨b, hb, rfl⟩⟩

theorem Sweeps.cleanupTable (hf : Sweeps func good hit clean) {h : Hash V} (hp : h.Placed) (hgood : All good h) :
    Gmetad.cleanupTable func h = some (sweptHash hit clean h) := by
  refine hf.cleanupLoop [] hp hgood ?_
  exact Nat.lt_succ_of_le List.countP_le_length

theorem Sweeps.sweptHash_sweptHash (hf : Sweeps func good hit clean) {h : Hash V} (hgood : All good h) :
    sweptHash hit clean (sweptHash hit clean h) = sweptHash hit clean h := by
  rw [sweptHash, sweptHash, List.map_map]
  congr 1
  exact List.map_congr_left fun c hc => hf.swept_swept (hgood c hc)

theorem Sweeps.all_sweptHash (hf : Sweeps func good hit clean) {h : Hash V} (hgood : All good h) :
    All good (sweptHash hit clean h) := by
  intro c hc
  obtain ⟨c', hc', rfl⟩ := List.mem_map.mp hc
  exact hf.good_swept (hgood c' hc')

/-- The table has lost the old entries and no others, and has kept the others in some way. -/
def Cleaned (old : V → Prop) (kept : V → V → Prop) (h h' : Hash V) : Prop :=
  ∀ key, (∀ v, h.lookup key = some v →
      old v ∧ h'.lookup key = none ∨ ¬old v ∧ ∃ v', h'.lookup key = some v' ∧ kept v v') ∧
    (h.lookup key = none → h'.lookup key = none)

theorem cleaned_sweptHash {old : V → Prop} {kept : V → V → Prop} {h : Hash V} (hp : h.Placed) :
    Cleaned old kept h (sweptHash hit clean h) ↔ All (fun v => (hit v = true ↔ old v) ∧ (¬old v → kept v (clean v))) h := by
  have hlookup : ∀ key, (sweptHash hit clean h).lookup key =
      (h.lookup key).bind fun v => if hit v then none else some (clean v) := lookup_sweptHash hp
  rw [all_iff_lookup hp]
  constructor
  · intro hclean key v hv
    have hkey := hlookup key
    rw [hv, Option.bind_some] at hkey
    rcases (hclean key).1 v hv with ⟨hold, hnone⟩ | ⟨hnot, v', hv', hkept⟩
    · refine ⟨iff_of_true ?_ hold, absurd hold⟩
      by_contra hhit
      rw [hnone, if_neg hhit] at hkey
      cases hkey
    · rw [hv'] at hkey
      cases hhit : hit v with
      | true =>
        rw [hhit, if_pos rfl] at hkey
        cases hkey
      | false =>
        rw [hhit, if_neg Bool.false_ne_true] at hkey
        cases hkey
        exact ⟨iff_of_false Bool.false_ne_true hnot, fun _ => hkept⟩
  · intro hall key
    rw [hlookup]
    constructor
    · intro v hv
      obtain ⟨hiff, hkept⟩ := hall key v hv
      rw [hv, Option.bind_some]
      by_cases hold : old v
      · exact .inl ⟨hold, if_pos (hiff.mpr hold)⟩
      · exact .inr ⟨hold, clean v, if_neg fun hhit => hold (hiff.mp hhit), hkept hold⟩
    · intro hnone
      rw [hnone]
      rfl

end Sweep

variable {now : Int}

/-- The value has been there for longer than its `dmax`. -/
def Old (now t0 : Int) (dmax : UInt32) : Prop := dmax ≠ 0 ∧ dmax.toNat < now - t0

/-- The time `t0`, of which `born` keeps the low 32 bits, is before the limit if these are. -/
def Judged (now t0 : Int) (dmax : UInt32) : Prop := dmax ≠ 0 → (dmax.toNat < now - t0 % 2 ^ 32 ↔ dmax.toNat < now - t0)

theorem expired_iff_old {t0 : Int} {dmax : UInt32} : (expired now t0 dmax = true ↔ Old now t0 dmax) ↔ Judged now t0 dmax := by
  rw [expired, decide_eq_true_iff, Old, Judged, born, gt_iff_lt]
  by_cases hdmax : dmax = 0
  · simp only [hdmax, ne_eq, not_true_eq_false, false_and, false_implies]
  · simp only [hdmax, ne_eq, not_false_eq_true, true_and, true_implies]

def MetricsCleaned (now : Int) : Hash Metric → Hash Metric → Prop := Cleaned (fun metric => Old now metric.t0 metric.dmax) Eq

def HostsCleaned (now : Int) : Hash Host → Hash Host → Prop :=
  Cleaned (fun host => Old now host.t0 host.dmax) fun host host' =>
    host'.t0 = host.t0 ∧ host'.dmax = host.dmax ∧ MetricsCleaned now host.metrics host'.metrics

/-- No source goes. -/
def SourcesCleaned (now : Int) : Hash Source → Hash Source → Prop :=
  Cleaned (fun _ => False) fun source source' =>
    MetricsCleaned now source.metricSummary source'.metricSummary ∧
      Option.Rel (HostsCleaned now) source.authority source'.authority

def MetricsJudged (now : Int) : Hash Metric → Prop := All fun metric => Judged now metric.t0 metric.dmax

def HostsJudged (now : Int) : Hash Host → Prop :=
  All fun host => Judged now host.t0 host.dmax ∧ (¬Old now host.t0 host.dmax → MetricsJudged now host.metrics)

def SourcesJudged (now : Int) : Hash Source → Prop :=
  All fun source => MetricsJudged now source.metricSummary ∧ ∀ hosts ∈ source.authority, HostsJudged now hosts

/-- The tables of a source are in order. -/
def Source.Placed (source : Source) : Prop :=
  source.metricSummary.Placed ∧ ∀ hosts ∈ source.authority, hosts.Placed ∧ All (fun host => host.metrics.Placed) hosts

def sweptMetrics (now : Int) : Hash Metric → Hash Metric := sweptHash (fun metric => expired now metric.t0 metric.dmax) id

def cleanHost (now : Int) (host : Host) : Host := { host with metrics := sweptMetrics now host.metrics }

def sweptHosts (now : Int) : Hash Host → Hash Host :=
  sweptHash (fun host => expired now host.t0 host.dmax) (cleanHost now)

def cleanSource (now : Int) (source : Source) : Source where
  metricSummary := sweptMetrics now source.metricSummary
  authority := source.authority.map (sweptHosts now)

theorem sweeps_metric (now : Int) :
    Sweeps (cleanupMetric now) (fun _ => True) (fun metric => expired now metric.t0 metric.dmax) id where
  stop key v _ hhit := by rw [cleanupMetric, if_pos hhit]
  pass key v _ hhit := by rw [cleanupMetric, if_neg (by rw [hhit]; exact Bool.false_ne_true)]; rfl
  good_clean _ _ _ := trivial
  hit_clean _ _ hhit := hhit
  clean_clean _ _ _ := rfl

theorem cleanupTable_metrics {metrics : Hash Metric} (hp : metrics.Placed) :
    cleanupTable (cleanupMetric now) metrics = some (sweptMetrics now metrics) :=
  (sweeps_metric now).cleanupTable hp fun _ _ _ _ => trivial

theorem sweptMetrics_sweptMetrics (metrics : Hash Metric) : sweptMetrics now (sweptMetrics now metrics) = sweptMetrics now metrics :=
  (sweeps_metric now).sweptHash_sweptHash fun _ _ _ _ => trivial

theorem sweeps_host (now : Int) :
    Sweeps (cleanupNode now) (fun host => host.metrics.Placed) (fun host => expired now host.t0 host.dmax)
      (cleanHost now) where
  stop key v _ hhit := by rw [cleanupNode, if_pos hhit]
  pass key v hgood hhit := by
    rw [cleanupNode, if_neg (by rw [hhit]; exact Bool.false_ne_true), cleanupTable_metrics hgood]
    rfl
  good_clean _ hgood _ := Placed.sweptHash hgood
  hit_clean _ _ hhit := hhit
  clean_clean v _ _ := by rw [cleanHost, cleanHost, sweptMetrics_sweptMetrics]

theorem cleanupTable_hosts {hosts : Hash Host} (hp : hosts.Placed) (hgood : All (fun host => host.metrics.Placed) hosts) :
    cleanupTable (cleanupNode now) hosts = some (sweptHosts now hosts) :=
  (sweeps_host now).cleanupTable hp hgood

theorem sweeps_source (now : Int) : Sweeps (cleanupSource now) Source.Placed (fun _ => false) (cleanSource now) where
  stop _ _ _ hhit := by cases hhit
  pass key v hgood _ := by
    obtain ⟨metricSummary, authority⟩ := v
    rw [cleanupSource, cleanupTable_metrics hgood.1]
    cases authority with
    | none => rfl
    | some hosts =>
      obtain ⟨hp, hall⟩ := hgood.2 hosts rfl
      simp only [Option.bind_eq_bind, Option.bind_some, cleanupTable_hosts hp hall]
      rfl
  good_clean v hgood _ := by
    refine ⟨Placed.sweptHash hgood.1, fun hosts hhosts => ?_⟩
    obtain ⟨hosts', hhosts', rfl⟩ := Option.map_eq_some_iff.mp hhosts
    obtain ⟨hp, hall⟩ := hgood.2 hosts' hhosts'
    exact ⟨Placed.sweptHash hp, (sweeps_host now).all_sweptHash hall⟩
  hit_clean _ _ _ := rfl
  clean_clean v hgood _ := by
    obtain ⟨metricSummary, authority⟩ := v
    rw [cleanSource, cleanSource, sweptMetrics_sweptMetrics]
    cases authority with
    | none => rfl
    | some hosts =>
      have hhosts : sweptHosts now (sweptHosts now hosts) = sweptHosts now hosts :=
        (sweeps_host now).sweptHash_sweptHash (hgood.2 hosts rfl).2
      rw [Option.map_some, Option.map_some, hhosts]

theorem all_congr {V : Type*} (good : V → Prop) {P Q : V → Prop} {h : Hash V} (hgood : All good h) (hPQ : ∀ v, good v → (P v ↔ Q v)) :
    All P h ↔ All Q h :=
  forall_congr' fun c => forall_congr' fun hc => forall_congr' fun b => forall_congr' fun hb =>
    hPQ b.val (hgood c hc b hb)

theorem metricsCleaned_iff {metrics : Hash Metric} (hp : metrics.Placed) :
    MetricsCleaned now metrics (sweptMetrics now metrics) ↔ MetricsJudged now metrics := by
  rw [MetricsCleaned, sweptMetrics, cleaned_sweptHash hp]
  refine all_congr (fun _ => True) (fun _ _ _ _ => trivial) fun metric _ => ?_
  rw [expired_iff_old]
  exact and_iff_left fun _ => rfl

theorem hostsCleaned_iff {hosts : Hash Host} (hp : hosts.Placed) (hgood : All (fun host => host.metrics.Placed) hosts) :
    HostsCleaned now hosts (sweptHosts now hosts) ↔ HostsJudged now hosts := by
  rw [HostsCleaned, sweptHosts, cleaned_sweptHash hp]
  refine all_congr _ hgood fun host hmetrics => ?_
  rw [expired_iff_old]
  refine and_congr_right fun _ => imp_congr_right fun _ => ?_
  rw [← metricsCleaned_iff hmetrics]
  exact ⟨fun h => h.2.2, fun h => ⟨rfl, rfl, h⟩⟩

theorem sourcesCleaned_iff {root : Hash Source} (hp : root.Placed) (hgood : All Source.Placed root) :
    SourcesCleaned now root (sweptHash (fun _ => false) (cleanSource now) root) ↔ SourcesJudged now root := by
  rw [SourcesCleaned, cleaned_sweptHash hp]
  refine all_congr _ hgood fun source hsource => ?_
  have hnever : (false = true ↔ False) := ⟨nofun, False.elim⟩
  rw [and_iff_right hnever, not_false_eq_true, true_implies, cleanSource, metricsCleaned_iff hsource.1]
  refine and_congr_right fun _ => ?_
  obtain ⟨metricSummary, authority⟩ := source
  cases authority with
  | none => exact ⟨fun _ => nofun, fun _ => .none⟩
  | some hosts =>
    obtain ⟨hp', hall⟩ := hsource.2 hosts rfl
    rw [Option.map_some, Option.rel_some_some, hostsCleaned_iff hp' hall]
    exact ⟨fun h hosts' hhosts' => by cases hhosts'; exact h, fun h => h hosts rfl⟩

/-- The calls for a table of any size give what those for a map give as long as no value of no bytes replaces one that
has some, and the cleanup of the root ends and has removed what is old as long as the low 32 bits of a time tell what
is. -/
theorem hash_cleanup_iff (size : Nat) (calls : List HashCall) {root : Hash Source} (hp : root.Placed)
    (hgood : All Source.Placed root) :
    (Safe hashStep (fun s => s.1.Holds s.2) () calls (Hash.create size, fun _ => none) ∧
        ∃ root', cleanupThread now root = some root' ∧ SourcesCleaned now root root') ↔
      Along hashStep (fun s call => call.Fits s.2) calls (Hash.create size, fun _ => none) ∧ SourcesJudged now root := by
  have hclean : cleanupThread now root = some (sweptHash (fun _ => false) (cleanSource now) root) :=
    (sweeps_source now).cleanupTable hp hgood
  rw [hash_safe_iff, hclean, ← sourcesCleaned_iff hp hgood]
  refine and_congr_right fun _ => ?_
  constructor
  · rintro ⟨root', ⟨⟩, hcleaned⟩
    exact hcleaned
  · exact fun hcleaned => ⟨_, rfl, hcleaned⟩

/-- A table of the value of `h`. -/
def single {V : Type*} (v : V) : Hash V where
  node := [[⟨[104, 0], v⟩], []]

theorem single_placed {V : Type*} (v : V) : (single v).Placed := by
  have hval : hashval 2 [104, 0] = 0 := by decide
  refine ⟨Nat.zero_lt_two, fun i b hb => ?_, fun i => ?_⟩
  · match i, hb with
    | 0, hb =>
      cases List.mem_singleton.mp hb
      exact ⟨hval, ⟨[104], by decide +kernel⟩, rfl⟩
    | 1, hb => cases hb
    | _ + 2, hb => cases hb
  · match i with
    | 0 => exact List.nodup_singleton _
    | 1 => exact List.nodup_nil
    | _ + 2 => exact List.nodup_nil

theorem all_single {V : Type*} {P : V → Prop} {v : V} : All P (single v) ↔ P v := by
  constructor
  · exact fun hall => hall _ List.mem_cons_self _ List.mem_cons_self
  · intro hv c hc b hb
    rcases List.mem_cons.mp hc with rfl | hc
    · cases List.mem_singleton.mp hb
      exact hv
    · cases List.mem_singleton.mp hc
      cases hb

/-- A host that was last heard of at a time, with a metric from then, both to go after an hour. -/
def hostFrom (t0 : Int) : Host := ⟨t0, 3600, single ⟨t0, 3600⟩⟩

def rootFrom (t0 : Int) : Hash Source := single ⟨single ⟨t0, 0⟩, some (single (hostFrom t0))⟩

theorem rootFrom_placed (t0 : Int) : (rootFrom t0).Placed ∧ All Source.Placed (rootFrom t0) := by
  refine ⟨single_placed _, all_single.2 ⟨single_placed _, fun hosts hhosts => ?_⟩⟩
  cases hhosts
  exact ⟨single_placed _, all_single.2 (single_placed _)⟩

theorem hash_cleanup_iff_rootFrom :
    (Safe hashStep (fun s => s.1.Holds s.2) () [] (Hash.create 0, fun _ => none) ∧
        ∃ root', cleanupThread 1700000000 (rootFrom 1600000000) = some root' ∧
          SourcesCleaned 1700000000 (rootFrom 1600000000) root') ↔
      Along hashStep (fun s call => call.Fits s.2) [] (Hash.create 0, fun _ => none) ∧
        SourcesJudged 1700000000 (rootFrom 1600000000) :=
  hash_cleanup_iff 0 [] (rootFrom_placed _).1 (rootFrom_placed _).2

/-- A host of two thousand million seconds ago, which is before 1970, is not removed. -/
theorem hash_cleanup_not_cleaned :
    (rootFrom (-300000000)).Placed ∧ All Source.Placed (rootFrom (-300000000)) ∧
      ¬∃ root', cleanupThread 1700000000 (rootFrom (-300000000)) = some root' ∧
        SourcesCleaned 1700000000 (rootFrom (-300000000)) root' := by
  obtain ⟨hp, hgood⟩ := rootFrom_placed (-300000000)
  refine ⟨hp, hgood, ?_⟩
  have hclean := (sweeps_source 1700000000).cleanupTable hp hgood
  rintro ⟨root', hroot', hcleaned⟩
  cases hclean.symm.trans hroot'
  have hjudged := (all_single.1 ((sourcesCleaned_iff hp hgood).mp hcleaned)).2 _ rfl
  exact absurd ((all_single.1 hjudged).1 (by decide)) (by decide)

end Colama.Ganglia.Gmetad

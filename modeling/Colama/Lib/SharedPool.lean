import Mathlib.Tactic

namespace Colama.Lib

/-- What channels do with the items of a pool while they make their messages. A message is known by its channel
and its number, which starts from one. -/
inductive PoolEvent (ι α : Type*)
  | add (m : ι × Nat) (x : α)
  | hit (m : ι × Nat) (x : α)
  | evict (m : ι × Nat) (x : α)
  | send (m : ι × Nat) (waits : List (ι × Nat))
  deriving DecidableEq

namespace PoolEvent

variable {ι α : Type*}

/-- The message that is being made. -/
def message : PoolEvent ι α → ι × Nat
  | add m _ => m
  | hit m _ => m
  | evict m _ => m
  | send m _ => m

end PoolEvent

section Pool

variable {ι α : Type*}

/-- The events so far, the last first. -/
abbrev PoolLog (ι α : Type*) := List (PoolEvent ι α)

def Sent (log : PoolLog ι α) (m : ι × Nat) : Prop := ∃ waits, .send m waits ∈ log

def Uses (log : PoolLog ι α) (m : ι × Nat) (x : α) : Prop := .add m x ∈ log ∨ .hit m x ∈ log

/-- The message is the one that its channel is making. -/
structure Open (log : PoolLog ι α) (m : ι × Nat) : Prop where
  ne_zero : m.2 ≠ 0
  unsent : ¬ Sent log m
  last : ∀ e ∈ log, e.message.1 = m.1 → e.message.2 ≤ m.2
  before : ∀ n, n ≠ 0 → n < m.2 → Sent log (m.1, n)

/-- What may happen next to an item. The message that a channel sends has to wait until the other channels'
messages that use an item it has evicted are dealt with. -/
def Fits (log : PoolLog ι α) : PoolEvent ι α → Prop
  | .add _ x => ∀ m, ¬ Uses log m x ∧ .evict m x ∉ log
  | .hit _ x => (∃ m, .add m x ∈ log) ∧ ∀ m, .evict m x ∉ log
  | .evict m x => (∃ m, .add m x ∈ log) ∧ (∀ m, .evict m x ∉ log) ∧ ¬ Uses log m x
  | .send m waits => ∀ x, .evict m x ∈ log → ∀ m', Uses log m' x → m'.1 ≠ m.1 →
      ∃ w ∈ waits, w.1 = m'.1 ∧ m'.2 ≤ w.2

/-- Each event was allowed when it took place. -/
def Legal (log : PoolLog ι α) : Prop := ∀ e old, (e :: old) <:+ log → Open old e.message ∧ Fits old e

variable {log old old' : PoolLog ι α} {e e' : PoolEvent ι α} {m m' : ι × Nat} {x : α} {waits waits' : List (ι × Nat)}

theorem legal_nil : Legal ([] : PoolLog ι α) := by
  intro e old h
  exact absurd (List.suffix_nil.mp h) (List.cons_ne_nil e old)

theorem legal_cons : Legal (e :: log) ↔ (Open log e.message ∧ Fits log e) ∧ Legal log := by
  constructor
  · exact fun h => ⟨h e log (List.suffix_refl _), fun e' old hs => h e' old (hs.trans (List.suffix_cons e log))⟩
  · rintro ⟨h, hlog⟩ e' old hs
    obtain he | hs := List.suffix_cons_iff.mp hs
    · obtain ⟨rfl, rfl⟩ := List.cons.inj he
      exact h
    · exact hlog e' old hs

theorem exists_suffix (h : e ∈ log) : ∃ old, (e :: old) <:+ log := by
  obtain ⟨new, old, rfl⟩ := List.append_of_mem h
  exact ⟨old, List.suffix_append new _⟩

theorem mem_of_suffix (h : (e :: old) <:+ log) : e ∈ log := h.subset List.mem_cons_self

theorem old_suffix (h : (e :: old) <:+ log) : old <:+ log := (List.suffix_cons e old).trans h

/-- Of two events one is older than the other, if they are not the same. -/
theorem older_or (h : (e :: old) <:+ log) (h' : (e' :: old') <:+ log) :
    (e = e' ∧ old = old') ∨ (e :: old) <:+ old' ∨ (e' :: old') <:+ old := by
  obtain hs | hs := List.suffix_or_suffix_of_suffix h h'
  · obtain he | hs := List.suffix_cons_iff.mp hs
    · exact .inl (List.cons.inj he)
    · exact .inr (.inl hs)
  · obtain he | hs := List.suffix_cons_iff.mp hs
    · obtain ⟨rfl, rfl⟩ := List.cons.inj he
      exact .inl ⟨rfl, rfl⟩
    · exact .inr (.inr hs)

theorem Sent.mono (h : Sent old m) (hs : old <:+ log) : Sent log m := by
  obtain ⟨waits, hmem⟩ := h
  exact ⟨waits, hs.subset hmem⟩

theorem Uses.mono (h : Uses old m x) (hs : old <:+ log) : Uses log m x := h.imp (hs.subset ·) (hs.subset ·)

theorem Uses.of_cons (h : Uses (e :: log) m x) (hadd : e ≠ .add m x) (hhit : e ≠ .hit m x) : Uses log m x := by
  obtain h | h := h
  · exact .inl ((List.mem_cons.mp h).resolve_left hadd.symm)
  · exact .inr ((List.mem_cons.mp h).resolve_left hhit.symm)

/-- The events that make a message come before it is sent. -/
theorem Legal.older_of_send (h : Legal log) (hs : (.send m waits :: old) <:+ log) (he : e ∈ log)
    (hm : e.message = m) : e = .send m waits ∨ e ∈ old := by
  obtain ⟨old', he⟩ := exists_suffix he
  obtain ⟨rfl, -⟩ | hs | hs := older_or he hs
  · exact .inl rfl
  · exact .inr (mem_of_suffix hs)
  · exact absurd ⟨waits, mem_of_suffix hs⟩ (hm ▸ (h e old' he).1.unsent)

theorem Legal.send_unique (h : Legal log) (hm : .send m waits ∈ log) (hm' : .send m waits' ∈ log) :
    waits' = waits := by
  obtain ⟨old, hs⟩ := exists_suffix hm
  obtain he | he := h.older_of_send hs hm' rfl
  · exact (PoolEvent.send.inj he).2
  · exact absurd ⟨waits', he⟩ (h _ _ hs).1.unsent

theorem Legal.add_unique (h : Legal log) (hm : .add m x ∈ log) (hm' : .add m' x ∈ log) : m' = m := by
  obtain ⟨old, hs⟩ := exists_suffix hm
  obtain ⟨old', hs'⟩ := exists_suffix hm'
  obtain ⟨he, -⟩ | hs'' | hs'' := older_or hs hs'
  · exact (PoolEvent.add.inj he).1.symm
  · exact absurd (.inl (mem_of_suffix hs'')) ((h _ _ hs').2 m).1
  · exact absurd (.inl (mem_of_suffix hs'')) ((h _ _ hs).2 m').1

theorem Legal.evict_unique (h : Legal log) (hm : .evict m x ∈ log) (hm' : .evict m' x ∈ log) : m' = m := by
  obtain ⟨old, hs⟩ := exists_suffix hm
  obtain ⟨old', hs'⟩ := exists_suffix hm'
  obtain ⟨he, -⟩ | hs'' | hs'' := older_or hs hs'
  · exact (PoolEvent.evict.inj he).1.symm
  · exact absurd (mem_of_suffix hs'') ((h _ _ hs').2.2.1 m)
  · exact absurd (mem_of_suffix hs'') ((h _ _ hs).2.2.1 m')

/-- An item is not used any more after it was evicted. -/
theorem Legal.uses_of_evict (h : Legal log) (hs : (.evict m x :: old) <:+ log) (hu : Uses log m' x) :
    Uses old m' x := by
  have hmem := mem_of_suffix hs
  obtain hu | hu := hu
  · obtain ⟨old', hs'⟩ := exists_suffix hu
    obtain ⟨he, -⟩ | hs'' | hs'' := older_or hs hs'
    · exact absurd he nofun
    · exact absurd (mem_of_suffix hs'') ((h _ _ hs').2 m).2
    · exact .inl (mem_of_suffix hs'')
  · obtain ⟨old', hs'⟩ := exists_suffix hu
    obtain ⟨he, -⟩ | hs'' | hs'' := older_or hs hs'
    · exact absurd he nofun
    · exact absurd (mem_of_suffix hs'') ((h _ _ hs').2.2 m)
    · exact .inr (mem_of_suffix hs'')

/-- The uses by the channel that evicts an item belong to its earlier messages. -/
theorem Legal.lt_of_evict (h : Legal log) (he : .evict m x ∈ log) (hu : Uses log m' x) (hm : m'.1 = m.1) :
    m'.2 < m.2 := by
  obtain ⟨old, hs⟩ := exists_suffix he
  obtain ⟨hopen, -, -, hnot⟩ := h _ _ hs
  have hu' := h.uses_of_evict hs hu
  have hle : m'.2 ≤ m.2 := hu'.elim (hopen.last _ · hm) (hopen.last _ · hm)
  refine lt_of_le_of_ne hle fun hn => hnot ?_
  obtain rfl : m' = m := Prod.ext hm hn
  exact hu'

theorem Legal.covered (h : Legal log) (hm : .send m waits ∈ log) (he : .evict m x ∈ log) (hu : Uses log m' x)
    (hne : m'.1 ≠ m.1) : ∃ w ∈ waits, w.1 = m'.1 ∧ m'.2 ≤ w.2 := by
  obtain ⟨old, hs⟩ := exists_suffix hm
  have hold := (h.older_of_send hs he rfl).resolve_left nofun
  obtain ⟨old', hs'⟩ := exists_suffix hold
  have hu' := (h.uses_of_evict (hs'.trans (old_suffix hs)) hu).mono
    (old_suffix hs')
  exact (h _ _ hs).2 x hold m' hu' hne

/-- A client deals with the messages of a channel in turn, the last being `sync`, and before it removes what a
message has evicted it meets the waits of the message. Then it has already got the item. -/
theorem Legal.got_of_evict (h : Legal log) {sync : ι → Nat} (got : α → Prop)
    (hgot : ∀ m x, .add m x ∈ log → m.2 ≤ sync m.1 → got x) (he : .evict m x ∈ log)
    (hm : .send m waits ∈ log) (hwaits : ∀ w ∈ waits, w.2 ≤ sync w.1) (hturn : m.2 ≤ sync m.1 + 1) :
    got x := by
  obtain ⟨old, hs⟩ := exists_suffix he
  obtain ⟨-, ⟨a, hadd⟩, -⟩ := h _ _ hs
  have hadd := (old_suffix hs).subset hadd
  refine hgot a x hadd ?_
  by_cases ha : a.1 = m.1
  · have := h.lt_of_evict he (.inl hadd) ha
    rw [ha]
    omega
  · obtain ⟨w, hw, hw₁, hle⟩ := h.covered hm he (.inl hadd) ha
    exact hle.trans (hw₁ ▸ hwaits w hw)

/-- The message has to wait for another one, because it says so or because that one comes first on its channel. -/
inductive Awaits (log : PoolLog ι α) (m m' : ι × Nat) : Prop
  | waits {waits : List (ι × Nat)} (h : .send m waits ∈ log) (hw : m' ∈ waits)
  | channel (h : Sent log m) (hm : m'.1 = m.1) (hne : m'.2 ≠ 0) (hlt : m'.2 < m.2)

/-- The second message was sent before any other channel has hit an item that the first one adds. -/
def Early (log : PoolLog ι α) (m m' : ι × Nat) : Prop :=
  ∃ waits old, (.send m' waits :: old) <:+ log ∧ ∀ x n, .add m x ∈ log → .hit n x ∈ old → n.1 = m.1

/-- The messages wait for what was sent early only. -/
def Prompt (log : PoolLog ι α) : Prop :=
  ∀ m waits old, (.send m waits :: old) <:+ log → ∀ w ∈ waits, Early old m w

theorem prompt_cons (h : Prompt log) (he : ∀ m waits, e = .send m waits → ∀ w ∈ waits, Early log m w) :
    Prompt (e :: log) := by
  intro m waits old hs
  obtain heq | hs := List.suffix_cons_iff.mp hs
  · obtain ⟨rfl, rfl⟩ := List.cons.inj heq
    exact he m waits rfl
  · exact h m waits old hs

section Acyclic

variable (h : Legal log) (hp : Prompt log)

include h

theorem Legal.add_older (hs : (.send m waits :: old) <:+ log) (ha : .add m x ∈ log) : .add m x ∈ old :=
  (h.older_of_send hs ha rfl).resolve_left nofun

omit h in
theorem Awaits.sent (ha : Awaits log m m') : Sent log m := by
  cases ha with
  | waits hm _ => exact ⟨_, hm⟩
  | channel hm _ _ _ => exact hm

include hp

/-- What a message waits for was sent before it, and before any other channel has hit one of its items. -/
theorem Legal.awaits_early (hs : (.send m waits :: old) <:+ log) (ha : Awaits log m m') : Early old m m' := by
  cases ha with
  | waits hm hw =>
    rw [h.send_unique (mem_of_suffix hs) hm] at hw
    exact hp m waits old hs m' hw
  | channel _ hm hne hlt =>
    obtain ⟨waits', hsent⟩ := (h _ _ hs).1.before m'.2 hne hlt
    rw [PoolEvent.message, ← hm] at hsent
    obtain ⟨old', hs'⟩ := exists_suffix hsent
    refine ⟨waits', old', hs', fun x n hadd hhit => ?_⟩
    -- an item that was hit before the message `m'` was sent was not added by the later message `m`
    have hsub := (old_suffix hs')
    have hlog := hsub.trans (old_suffix hs)
    obtain ⟨old'', hs''⟩ := exists_suffix hhit
    obtain ⟨a, ha⟩ := (h _ _ (hs''.trans hlog)).2.1
    have ha' := (old_suffix hs'').subset ha
    have hlog' : old <:+ log := old_suffix hs
    obtain rfl := h.add_unique (hlog'.subset hadd) (hlog.subset ha')
    have hle := (h _ _ (hs'.trans hlog')).1.last _ ha' hm.symm
    exact absurd hle (Nat.not_le.mpr hlt)

theorem Legal.sent_of_transGen (ht : Relation.TransGen (Awaits log) m m')
    (hs : (.send m waits :: old) <:+ log) : Sent old m' := by
  induction ht using Relation.TransGen.head_induction_on generalizing waits old with
  | single ha =>
    obtain ⟨waits', old', hs', -⟩ := h.awaits_early hp hs ha
    exact ⟨waits', mem_of_suffix hs'⟩
  | head ha _ ih =>
    obtain ⟨waits', old', hs', -⟩ := h.awaits_early hp hs ha
    have hlog := hs'.trans (old_suffix hs)
    exact (ih hlog).mono (old_suffix hs')

/-- No message waits for itself. -/
theorem Legal.acyclic (m : ι × Nat) : ¬ Relation.TransGen (Awaits log) m m := by
  intro ht
  obtain ⟨_, ha, -⟩ := Relation.TransGen.head'_iff.mp ht
  obtain ⟨waits, hm⟩ := ha.sent
  obtain ⟨old, hs⟩ := exists_suffix hm
  exact (h _ _ hs).1.unsent (h.sent_of_transGen hp ht hs)

/-- The first step of a wait leads to what was sent before the other channel's hit. -/
theorem Legal.sent_before_hit {b : ι × Nat} {oldHit : PoolLog ι α} (ht : Relation.TransGen (Awaits log) m b)
    (hs : (.send m waits :: old) <:+ log) (hadd : .add m x ∈ old) (hb : b.1 ≠ m.1)
    (hhit : (.hit b x :: oldHit) <:+ log) : Sent oldHit b := by
  obtain ⟨m₁, ha, hrest⟩ := Relation.TransGen.head'_iff.mp ht
  obtain ⟨waits₁, old₁, hs₁, hold₁⟩ := h.awaits_early hp hs ha
  have hlog := hs₁.trans (old_suffix hs)
  have hsent : Sent (.send m₁ waits₁ :: old₁) b := by
    obtain rfl | ht₁ := Relation.reflTransGen_iff_eq_or_transGen.mp hrest
    · exact ⟨waits₁, List.mem_cons_self⟩
    · exact (h.sent_of_transGen hp ht₁ hlog).mono (List.suffix_cons _ _)
  obtain ⟨he, -⟩ | hs' | hs' := older_or hlog hhit
  · exact absurd he nofun
  · exact hsent.mono hs'
  · exact absurd (hold₁ x b hadd (mem_of_suffix hs')) hb

/-- The message that adds an item does not wait for one that hits it. -/
theorem Legal.not_awaits_hit {b : ι × Nat} (hb : .hit b x ∈ log) :
    ∃ a, .add a x ∈ log ∧ ¬ Relation.TransGen (Awaits log) a b := by
  obtain ⟨oldHit, hhit⟩ := exists_suffix hb
  obtain ⟨hopen, ⟨a, hadd⟩, -⟩ := h _ _ hhit
  refine ⟨a, (old_suffix hhit).subset hadd, fun ht => ?_⟩
  obtain ⟨_, ha, -⟩ := Relation.TransGen.head'_iff.mp ht
  obtain ⟨waits, hm⟩ := ha.sent
  obtain ⟨old, hs⟩ := exists_suffix hm
  by_cases hab : b.1 = a.1
  · -- a channel hits its own items in the same message or in a later one, which waits for this one
    have hle : a.2 ≤ b.2 := hopen.last _ hadd hab.symm
    obtain heq | hlt := hle.eq_or_lt
    · obtain rfl : a = b := Prod.ext hab.symm heq
      exact h.acyclic hp a ht
    · have hsent : Sent log b := (h.sent_of_transGen hp ht hs).mono (old_suffix hs)
      have hne : a.2 ≠ 0 := (h _ _ hs).1.ne_zero
      exact h.acyclic hp a (ht.trans (.single (.channel hsent hab.symm hne hlt)))
  · have haddOld := h.add_older hs ((old_suffix hhit).subset hadd)
    exact hopen.unsent (h.sent_before_hit hp ht hs haddOld hab hhit)

end Acyclic

/-- A message evicts some items, one after the other. -/
def evictAll (log : PoolLog ι α) (m : ι × Nat) (gone : List α) : PoolLog ι α :=
  gone.foldl (fun log x => .evict m x :: log) log

theorem evictAll_suffix (log : PoolLog ι α) (m : ι × Nat) (gone : List α) : log <:+ evictAll log m gone := by
  induction gone generalizing log with
  | nil => exact List.suffix_refl log
  | cons x gone ih => exact (List.suffix_cons _ _).trans (ih _)

theorem mem_evictAll {gone : List α} : e ∈ evictAll log m gone ↔ e ∈ log ∨ ∃ x ∈ gone, e = .evict m x := by
  induction gone generalizing log with
  | nil => exact (or_iff_left fun ⟨_, h, _⟩ => List.not_mem_nil h).symm
  | cons y gone ih =>
    rw [evictAll, List.foldl_cons, ← evictAll, ih, List.mem_cons]
    constructor
    · rintro ((rfl | h) | ⟨x, h, he⟩)
      · exact .inr ⟨y, List.mem_cons_self, rfl⟩
      · exact .inl h
      · exact .inr ⟨x, List.mem_cons_of_mem y h, he⟩
    · rintro (h | ⟨x, h, he⟩)
      · exact .inl (.inr h)
      · obtain rfl | h := List.mem_cons.mp h
        · exact .inl (.inl he)
        · exact .inr ⟨x, h, he⟩

theorem uses_evictAll {gone : List α} : Uses (evictAll log m gone) m' x ↔ Uses log m' x := by
  rw [Uses, mem_evictAll, mem_evictAll, Uses]
  refine or_congr (or_iff_left ?_) (or_iff_left ?_) <;> exact fun ⟨_, _, h⟩ => absurd h nofun

theorem Sent.of_cons (h : Sent (e :: log) m) (hsend : ∀ waits, e ≠ .send m waits) : Sent log m := by
  obtain ⟨waits, hmem⟩ := h
  exact ⟨waits, (List.mem_cons.mp hmem).resolve_left fun he => hsend waits he.symm⟩

theorem Open.cons (h : Open log m) (he : e.message.1 = m.1 → e.message.2 ≤ m.2)
    (hsend : ∀ waits, e ≠ .send m waits) : Open (e :: log) m where
  ne_zero := h.ne_zero
  unsent hsent := h.unsent (hsent.of_cons hsend)
  last e' hmem := by
    obtain rfl | hmem := List.mem_cons.mp hmem
    · exact he
    · exact h.last e' hmem
  before n hn hlt := (h.before n hn hlt).mono (List.suffix_cons e log)

theorem Legal.evictAll {gone : List α} (h : Legal log) (hopen : Open log m) (hnodup : gone.Nodup)
    (hadd : ∀ x ∈ gone, ∃ a, .add a x ∈ log) (hlive : ∀ x ∈ gone, ∀ m, .evict m x ∉ log)
    (hunused : ∀ x ∈ gone, ¬ Uses log m x) :
    Legal (evictAll log m gone) ∧ Open (Lib.evictAll log m gone) m := by
  induction gone generalizing log with
  | nil => exact ⟨h, hopen⟩
  | cons y gone ih =>
    obtain ⟨hy, hnodup⟩ := List.nodup_cons.mp hnodup
    have hself := List.mem_cons_self (a := y) (l := gone)
    have hlegal : Legal (.evict m y :: log) :=
      legal_cons.mpr ⟨⟨hopen, hadd y hself, hlive y hself, hunused y hself⟩, h⟩
    refine ih hlegal (hopen.cons (fun _ => le_rfl) nofun) hnodup (fun x hx => ?_) (fun x hx m' hmem => ?_)
      fun x hx hu => ?_
    · obtain ⟨a, ha⟩ := hadd x (List.mem_cons_of_mem y hx)
      exact ⟨a, List.mem_cons_of_mem _ ha⟩
    · obtain he | hmem := List.mem_cons.mp hmem
      · exact hy ((PoolEvent.evict.inj he).2 ▸ hx)
      · exact hlive x (List.mem_cons_of_mem y hx) m' hmem
    · have hu : Uses (Lib.evictAll log m [y]) m x := hu
      exact hunused x (List.mem_cons_of_mem y hx) (uses_evictAll.1 hu)

/-- Some items are evicted, and then it may be that a new one is added. -/
def evictThenAdd (log : PoolLog ι α) (m : ι × Nat) (gone : List α) (ok : Bool) (new : α) : PoolLog ι α :=
  cond ok (.add m new :: Lib.evictAll log m gone) (Lib.evictAll log m gone)

theorem evictThenAdd_suffix (log : PoolLog ι α) (m : ι × Nat) (gone : List α) (ok : Bool) (new : α) :
    log <:+ evictThenAdd log m gone ok new := by
  have hs := evictAll_suffix log m gone
  cases ok with
  | true => exact hs.trans (List.suffix_cons _ _)
  | false => exact hs

theorem mem_evictThenAdd {gone : List α} {ok : Bool} {new : α} : e ∈ evictThenAdd log m gone ok new ↔
    e ∈ log ∨ (∃ x ∈ gone, e = .evict m x) ∨ ok = true ∧ e = .add m new := by
  cases ok with
  | true =>
    rw [evictThenAdd, cond_true, List.mem_cons, mem_evictAll, or_comm, or_assoc, and_iff_right rfl]
  | false =>
    rw [evictThenAdd, cond_false, mem_evictAll]
    exact or_congr_right (or_iff_left fun ⟨h, _⟩ => absurd h nofun).symm

theorem uses_evictThenAdd {gone : List α} {ok : Bool} {new : α} :
    Uses (evictThenAdd log m gone ok new) m' x ↔ Uses log m' x ∨ ok = true ∧ m' = m ∧ x = new := by
  rw [Uses, mem_evictThenAdd, mem_evictThenAdd, Uses]
  constructor
  · rintro ((h | ⟨_, -, h⟩ | ⟨hok, h⟩) | (h | ⟨_, -, h⟩ | ⟨-, h⟩))
    · exact .inl (.inl h)
    · exact absurd h nofun
    · exact .inr ⟨hok, PoolEvent.add.inj h⟩
    · exact .inl (.inr h)
    · exact absurd h nofun
    · exact absurd h nofun
  · rintro ((h | h) | ⟨hok, rfl, rfl⟩)
    · exact .inl (.inl h)
    · exact .inr (.inl h)
    · exact .inl (.inr (.inr ⟨hok, rfl⟩))

theorem sent_evictThenAdd {gone : List α} {ok : Bool} {new : α} :
    Sent (evictThenAdd log m gone ok new) m' ↔ Sent log m' := by
  refine exists_congr fun waits => ?_
  rw [mem_evictThenAdd]
  refine or_iff_left ?_
  rintro (⟨_, -, h⟩ | ⟨-, h⟩) <;> exact absurd h nofun

theorem Legal.evictThenAdd {gone : List α} {new : α} (h : Legal log) (hopen : Open log m) (hnodup : gone.Nodup)
    (hadd : ∀ x ∈ gone, ∃ a, .add a x ∈ log) (hlive : ∀ x ∈ gone, ∀ m, .evict m x ∉ log)
    (hunused : ∀ x ∈ gone, ¬ Uses log m x) (hnew : ∀ m, ¬ Uses log m new ∧ .evict m new ∉ log)
    (hnew' : new ∉ gone) (ok : Bool) : Legal (evictThenAdd log m gone ok new) := by
  obtain ⟨hlegal, hopen'⟩ := h.evictAll hopen hnodup hadd hlive hunused
  cases ok with
  | true =>
    refine legal_cons.mpr ⟨⟨hopen', fun m' => ⟨fun hu => (hnew m').1 (uses_evictAll.1 hu), fun hmem => ?_⟩⟩, hlegal⟩
    obtain hmem | ⟨x, hx, he⟩ := mem_evictAll.mp hmem
    · exact (hnew m').2 hmem
    · exact hnew' ((PoolEvent.evict.inj he).2 ▸ hx)
  | false => exact hlegal

theorem Prompt.evictThenAdd (h : Prompt log) (m : ι × Nat) (gone : List α) (ok : Bool) (new : α) :
    Prompt (evictThenAdd log m gone ok new) := by
  have hall : Prompt (Lib.evictAll log m gone) := by
    induction gone generalizing log with
    | nil => exact h
    | cons x gone ih => exact ih (prompt_cons h fun _ _ => nofun)
  cases ok with
  | true => exact prompt_cons hall fun _ _ => nofun
  | false => exact hall

/-- What makes a message that was sent is older than that. -/
theorem Legal.mem_of_sent (h : Legal log) (hs : old <:+ log) (hsent : Sent old m) (he : e ∈ log)
    (hm : e.message = m) : e ∈ old := by
  obtain ⟨waits, hmem⟩ := hsent
  obtain ⟨old', hs'⟩ := exists_suffix hmem
  obtain rfl | he := h.older_of_send (hs'.trans hs) he hm
  · exact hmem
  · exact (old_suffix hs').subset he

/-- A message that was early stays so. -/
theorem Early.mono (h : Early old m m') (hs : old <:+ log) (hlegal : Legal log) : Early log m m' := by
  obtain ⟨waits, old', hs', hold⟩ := h
  refine ⟨waits, old', hs'.trans hs, fun x n hadd hhit => ?_⟩
  refine hold x n ?_ hhit
  -- the item was there when it was hit, so that it was not added later
  obtain ⟨old'', hs''⟩ := exists_suffix hhit
  have hsub := (old_suffix hs').trans hs
  obtain ⟨a, ha⟩ := (hlegal _ _ (hs''.trans hsub)).2.1
  have ha := (old_suffix (hs''.trans (old_suffix hs'))).subset ha
  obtain rfl := hlegal.add_unique hadd (hs.subset ha)
  exact ha

end Pool

end Colama.Lib

import Mathlib.Data.List.Basic
import Mathlib.Logic.Function.Basic
import Mathlib.Tactic

namespace Colama.Lib

/-- The links of doubly linked rings, `none` where a node is not linked. -/
structure Links (ν : Type*) where
  next : ν → Option ν
  prev : ν → Option ν

namespace Links

variable {ν : Type*} [DecidableEq ν]

/-- A ring with nothing but its anchor. -/
def init (m : Links ν) (r : ν) : Links ν where
  next := Function.update m.next r (some r)
  prev := Function.update m.prev r (some r)

/-- `x` is linked behind `r`. -/
def add (m : Links ν) (r x : ν) : Links ν :=
  match m.next r with
  | none => m
  | some y =>
    { next := Function.update (Function.update m.next x (some y)) r (some x)
      prev := Function.update (Function.update m.prev x (some r)) y (some x) }

def remove (m : Links ν) (x : ν) : Links ν :=
  match m.next x, m.prev x with
  | some n, some p =>
    { next := Function.update (Function.update m.next p (some n)) x none
      prev := Function.update (Function.update m.prev n (some p)) x none }
  | _, _ => m

def getHead (m : Links ν) (r : ν) : Option ν :=
  match m.next r with
  | none => none
  | some y => if y = r then none else some y

def getTail (m : Links ν) (r : ν) : Option ν :=
  match m.prev r with
  | none => none
  | some y => if y = r then none else some y

/-- The links of one node are set. -/
def attach (m : Links ν) (r : ν) (next prev : Option ν) : Links ν where
  next := Function.update m.next r next
  prev := Function.update m.prev r prev

end Links

section Chain

variable {ν : Type*} (m : Links ν)

/-- From `a` the nodes of the list lead to `b`, and back. -/
def Chain : ν → List ν → ν → Prop
  | a, [], b => m.next a = some b ∧ m.prev b = some a
  | a, x :: l, b => (m.next a = some x ∧ m.prev x = some a) ∧ Chain x l b

/-- The ring with the anchor `r` holds the nodes of the list. -/
structure IsRing (r : ν) (l : List ν) : Prop where
  chain : Chain m r l r
  nodup : (r :: l).Nodup

variable {m} {m' : Links ν} {a b r x : ν} {l l' : List ν}

theorem Chain.congr (h : Chain m a l b) (hnext : ∀ y ∈ a :: l, m'.next y = m.next y)
    (hprev : ∀ y ∈ b :: l, m'.prev y = m.prev y) : Chain m' a l b := by
  induction l generalizing a with
  | nil =>
    obtain ⟨h₁, h₂⟩ := h
    refine ⟨?_, ?_⟩
    · rw [hnext a List.mem_cons_self, h₁]
    · rw [hprev b List.mem_cons_self, h₂]
  | cons x l ih =>
    obtain ⟨⟨h₁, h₂⟩, h⟩ := h
    refine ⟨⟨?_, ?_⟩, ih h ?_ ?_⟩
    · rw [hnext a List.mem_cons_self, h₁]
    · rw [hprev x (List.mem_cons_of_mem _ List.mem_cons_self), h₂]
    · exact fun y hy => hnext y (List.mem_cons_of_mem _ hy)
    · intro y hy
      obtain rfl | hy := List.mem_cons.mp hy
      · exact hprev y List.mem_cons_self
      · exact hprev y (List.mem_cons_of_mem _ (List.mem_cons_of_mem _ hy))

theorem chain_append : Chain m a (l ++ x :: l') b ↔ Chain m a l x ∧ Chain m x l' b := by
  induction l generalizing a with
  | nil => rfl
  | cons y l ih => exact (and_congr_right fun _ => ih).trans and_assoc.symm

theorem Chain.next_mem (h : Chain m a l b) : ∃ n ∈ b :: l, m.next a = some n ∧ m.prev n = some a := by
  cases l with
  | nil => exact ⟨b, List.mem_cons_self, h⟩
  | cons x l => exact ⟨x, List.mem_cons_of_mem _ List.mem_cons_self, h.1⟩

theorem Chain.prev_mem (h : Chain m a l b) : ∃ p ∈ a :: l, m.prev b = some p := by
  induction l generalizing a with
  | nil => exact ⟨a, List.mem_cons_self, h.2⟩
  | cons x l ih =>
    obtain ⟨p, hp, e⟩ := ih h.2
    exact ⟨p, List.mem_cons_of_mem _ hp, e⟩

/-- Only the links of the nodes of the ring count. -/
theorem IsRing.congr (h : IsRing m r l) (hnext : ∀ y ∈ r :: l, m'.next y = m.next y)
    (hprev : ∀ y ∈ r :: l, m'.prev y = m.prev y) : IsRing m' r l :=
  ⟨h.chain.congr hnext hprev, h.nodup⟩

theorem IsRing.notMem (h : IsRing m r l) : r ∉ l := (List.nodup_cons.mp h.nodup).1

variable [DecidableEq ν]

theorem isRing_init (m : Links ν) (r : ν) : IsRing (m.init r) r [] :=
  ⟨⟨Function.update_self _ _ _, Function.update_self _ _ _⟩, List.nodup_singleton r⟩

theorem IsRing.getHead_eq (h : IsRing m r l) : m.getHead r = l.head? := by
  cases l with
  | nil =>
    rw [Links.getHead, h.chain.1]
    exact if_pos rfl
  | cons x l =>
    have hne : x ≠ r := fun he => h.notMem (he ▸ List.mem_cons_self)
    rw [Links.getHead, h.chain.1.1]
    exact if_neg hne

theorem IsRing.getTail_eq (h : IsRing m r l) : m.getTail r = l.getLast? := by
  obtain rfl | ⟨l, x, rfl⟩ := l.eq_nil_or_concat
  · rw [Links.getTail, h.chain.2]
    exact if_pos rfl
  · have hne : x ≠ r := by
      rintro rfl
      exact h.notMem (by simp)
    have hchain := h.chain
    rw [List.concat_eq_append, chain_append] at hchain
    rw [Links.getTail, hchain.2.2, List.concat_eq_append, List.getLast?_concat]
    exact if_neg hne

theorem IsRing.add (h : IsRing m r l) (hx : x ∉ r :: l) : IsRing (m.add r x) r (x :: l) := by
  obtain ⟨y, hy, hnext, -⟩ := h.chain.next_mem
  have hxr : x ≠ r := fun he => hx (he ▸ List.mem_cons_self)
  have hxl : x ∉ l := fun hl => hx (List.mem_cons_of_mem _ hl)
  have hxy : x ≠ y := fun he => hx (he ▸ hy)
  have hnodup : (r :: x :: l).Nodup := by
    refine List.nodup_cons.mpr ⟨?_, List.nodup_cons.mpr ⟨hxl, (List.nodup_cons.mp h.nodup).2⟩⟩
    rw [List.mem_cons, not_or]
    exact ⟨hxr.symm, h.notMem⟩
  have hm : m.add r x =
      { next := Function.update (Function.update m.next x (some y)) r (some x)
        prev := Function.update (Function.update m.prev x (some r)) y (some x) } := by
    rw [Links.add, hnext]
  rw [hm]
  refine ⟨⟨⟨Function.update_self _ _ _, ?_⟩, ?_⟩, hnodup⟩
  · exact (Function.update_of_ne hxy _ _).trans (Function.update_self _ _ _)
  · have hxnext : (Function.update (Function.update m.next x (some y)) r (some x)) x = some y := by
      rw [Function.update_of_ne hxr, Function.update_self]
    cases l with
    | nil =>
      obtain rfl : y = r := by simpa using hy
      exact ⟨hxnext, Function.update_self _ _ _⟩
    | cons z l =>
      obtain rfl : z = y := by
        have := h.chain.1.1
        rw [hnext] at this
        exact (Option.some_inj.mp this).symm
      refine ⟨⟨hxnext, Function.update_self _ _ _⟩, h.chain.2.congr (fun w hw => ?_) fun w hw => ?_⟩
      · have hwr : w ≠ r := fun he => h.notMem (he ▸ hw)
        have hwx : w ≠ x := fun he => hxl (he ▸ hw)
        exact (Function.update_of_ne hwr _ _).trans (Function.update_of_ne hwx _ _)
      · have hwz : w ≠ z := by
          rintro rfl
          obtain rfl | hw := List.mem_cons.mp hw
          · exact h.notMem List.mem_cons_self
          · exact (List.nodup_cons.mp (List.nodup_cons.mp h.nodup).2).1 hw
        have hwx : w ≠ x := by
          rintro rfl
          obtain rfl | hw := List.mem_cons.mp hw
          · exact hxr rfl
          · exact hxl (List.mem_cons_of_mem _ hw)
        exact (Function.update_of_ne hwz _ _).trans (Function.update_of_ne hwx _ _)

/-- The chains in front of a node and behind it are joined. -/
theorem Chain.remove {l₁ l₂ : List ν} (h₁ : Chain m a l₁ x) (h₂ : Chain m x l₂ b)
    (hnodup : (l₁ ++ x :: l₂).Nodup) (ha : a ∉ l₁ ++ x :: l₂) (hb : b ∉ l₁ ++ x :: l₂) :
    Chain (m.remove x) a (l₁ ++ l₂) b := by
  obtain ⟨n, hn, hnext, -⟩ := h₂.next_mem
  obtain ⟨p, hp, hprev⟩ := h₁.prev_mem
  have hm : m.remove x =
      { next := Function.update (Function.update m.next p (some n)) x none
        prev := Function.update (Function.update m.prev n (some p)) x none } := by
    rw [Links.remove, hnext, hprev]
  rw [hm]
  induction l₁ generalizing a with
  | nil =>
    obtain rfl : p = a := by simpa using hp
    have hpx : p ≠ x := fun he => ha (he ▸ List.mem_cons_self)
    have hbx : b ≠ x := fun he => hb (he ▸ List.mem_cons_self)
    have hx₂ : x ∉ l₂ := (List.nodup_cons.mp hnodup).1
    have hnx : n ≠ x := by
      rintro rfl
      obtain rfl | hn := List.mem_cons.mp hn
      · exact hbx rfl
      · exact hx₂ hn
    have hpnext : (Function.update (Function.update m.next p (some n)) x none) p = some n := by
      rw [Function.update_of_ne hpx, Function.update_self]
    have hnprev : (Function.update (Function.update m.prev n (some p)) x none) n = some p := by
      rw [Function.update_of_ne hnx, Function.update_self]
    cases l₂ with
    | nil =>
      obtain rfl : n = b := by simpa using hn
      exact ⟨hpnext, hnprev⟩
    | cons z l₂ =>
      obtain rfl : z = n := by
        have := h₂.1.1
        rw [hnext] at this
        exact (Option.some_inj.mp this).symm
      refine ⟨⟨hpnext, hnprev⟩, h₂.2.congr (fun w hw => ?_) fun w hw => ?_⟩
      · have hwx : w ≠ x := fun he => hx₂ (he ▸ hw)
        have hwp : w ≠ p := fun he => ha (List.mem_cons_of_mem _ (he ▸ hw))
        exact (Function.update_of_ne hwx _ _).trans (Function.update_of_ne hwp _ _)
      · have hwx : w ≠ x := by
          rintro rfl
          obtain rfl | hw := List.mem_cons.mp hw
          · exact hbx rfl
          · exact hx₂ (List.mem_cons_of_mem _ hw)
        have hwz : w ≠ z := by
          rintro rfl
          obtain rfl | hw := List.mem_cons.mp hw
          · exact hb (List.mem_cons_of_mem _ List.mem_cons_self)
          · exact (List.nodup_cons.mp (List.nodup_cons.mp hnodup).2).1 hw
        exact (Function.update_of_ne hwx _ _).trans (Function.update_of_ne hwz _ _)
  | cons y l₁ ih =>
    obtain ⟨⟨hay, hya⟩, h₁⟩ := h₁
    rw [List.cons_append] at hnodup ha hb
    obtain ⟨hy, hnodup⟩ := List.nodup_cons.mp hnodup
    rw [List.mem_cons, not_or] at ha hb
    obtain ⟨p', hp', hprev'⟩ := h₁.prev_mem
    obtain rfl : p' = p := Option.some_inj.mp (hprev'.symm.trans hprev)
    refine ⟨⟨?_, ?_⟩, ih h₁ hnodup hy hb.2 hp'⟩
    · have hax : a ≠ x := fun he => ha.2 (List.mem_append_right _ (he ▸ List.mem_cons_self))
      have hap : a ≠ p' := by
        rintro rfl
        obtain rfl | hp' := List.mem_cons.mp hp'
        · exact ha.1 rfl
        · exact ha.2 (List.mem_append_left _ hp')
      exact (Function.update_of_ne hax _ _).trans ((Function.update_of_ne hap _ _).trans hay)
    · have hyx : y ≠ x := fun he => hy (List.mem_append_right _ (he ▸ List.mem_cons_self))
      have hyn : y ≠ n := by
        rintro rfl
        obtain rfl | hn := List.mem_cons.mp hn
        · exact hb.1 rfl
        · exact hy (List.mem_append_right _ (List.mem_cons_of_mem _ hn))
      exact (Function.update_of_ne hyx _ _).trans ((Function.update_of_ne hyn _ _).trans hya)

theorem IsRing.remove {l₁ l₂ : List ν} (h : IsRing m r (l₁ ++ x :: l₂)) :
    IsRing (m.remove x) r (l₁ ++ l₂) := by
  obtain ⟨h₁, h₂⟩ := chain_append.mp h.chain
  obtain ⟨hr, hnodup⟩ := List.nodup_cons.mp h.nodup
  refine ⟨h₁.remove h₂ hnodup hr hr, List.nodup_cons.mpr ⟨?_, ?_⟩⟩
  · refine mt (fun hmem => ?_) hr
    rw [List.mem_append] at hmem ⊢
    exact hmem.imp_right (List.mem_cons_of_mem _)
  · rw [List.nodup_append] at hnodup ⊢
    exact ⟨hnodup.1, (List.nodup_cons.mp hnodup.2.1).2,
      fun a ha b hb => hnodup.2.2 a ha b (List.mem_cons_of_mem _ hb)⟩

/-- A ring that was taken off its anchor is put back. -/
theorem IsRing.attach (h : IsRing m r l) (hnext : ∀ y ∈ l, m'.next y = m.next y)
    (hprev : ∀ y ∈ l, m'.prev y = m.prev y) : IsRing (m'.attach r (m.next r) (m.prev r)) r l := by
  refine h.congr (fun y hy => ?_) fun y hy => ?_
  · obtain rfl | hl := List.mem_cons.mp hy
    · exact Function.update_self _ _ _
    · have hne : y ≠ r := fun he => h.notMem (he ▸ hl)
      exact (Function.update_of_ne hne _ _).trans (hnext y hl)
  · obtain rfl | hl := List.mem_cons.mp hy
    · exact Function.update_self _ _ _
    · have hne : y ≠ r := fun he => h.notMem (he ▸ hl)
      exact (Function.update_of_ne hne _ _).trans (hprev y hl)

end Chain

end Colama.Lib

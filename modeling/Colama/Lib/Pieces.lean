import Mathlib.Order.Basic
import Mathlib.Order.MinMax
import Mathlib.Tactic.Basic

namespace Colama.Lib

/-- The value `val` on the half-open interval from `lo` to `hi`. -/
structure Piece (β : Type*) (α : Type*) where
  lo : β
  hi : β
  val : α
  deriving DecidableEq

namespace Pieces

variable {β α : Type*} [LinearOrder β]

/-- A list of pieces read as a partial function. -/
def eval : List (Piece β α) → β → Option α
  | [], _ => none
  | p :: l, y => if p.lo ≤ y ∧ y < p.hi then some p.val else eval l y

/-- What may come after `p`: nothing that overlaps it, and nothing it could be merged with. -/
def Before (p : Piece β α) (l : List (Piece β α)) : Prop :=
  ∀ q ∈ l.head?, p.hi ≤ q.lo ∧ (p.hi = q.lo → p.val ≠ q.val)

inductive Normal : List (Piece β α) → Prop
  | nil : Normal []
  | cons {p : Piece β α} {l : List (Piece β α)} :
      p.lo < p.hi → Before p l → Normal l → Normal (p :: l)

variable {p q : Piece β α} {l l' : List (Piece β α)} {y : β}

@[simp] theorem eval_nil : eval ([] : List (Piece β α)) y = none := rfl

theorem Normal.lo_lt_hi (h : Normal (p :: l)) : p.lo < p.hi := by
  cases h with | cons hlt _ _ => exact hlt

theorem Normal.before (h : Normal (p :: l)) : Before p l := by
  cases h with | cons _ hb _ => exact hb

theorem Normal.tail (h : Normal (p :: l)) : Normal l := by
  cases h with | cons _ _ hl => exact hl

theorem Normal.hi_le_lo (h : Normal (p :: q :: l)) : p.hi ≤ q.lo := (h.before q rfl).1

theorem eval_cons_of_mem (h₁ : p.lo ≤ y) (h₂ : y < p.hi) : eval (p :: l) y = some p.val :=
  if_pos ⟨h₁, h₂⟩

theorem eval_cons_of_hi_le (h : p.hi ≤ y) : eval (p :: l) y = eval l y :=
  if_neg fun hc => not_lt_of_ge h hc.2

theorem eval_of_lt_lo (h : Normal (p :: l)) (hy : y < p.lo) : eval (p :: l) y = none := by
  induction l generalizing p with
  | nil => exact if_neg fun hc => not_lt_of_ge hc.1 hy
  | cons q l ih =>
    have hq : y < q.lo := lt_of_lt_of_le (lt_trans hy h.lo_lt_hi) h.hi_le_lo
    rw [eval, if_neg fun hc => not_lt_of_ge hc.1 hy, ih h.tail hq]

theorem lo_le_of_isSome (h : Normal (p :: l)) (hy : (eval (p :: l) y).isSome) : p.lo ≤ y := by
  by_contra hlt
  rw [eval_of_lt_lo h (not_le.mp hlt)] at hy
  cases hy

theorem eval_tail_of_lt_hi (h : Normal (p :: l)) (hy : y < p.hi) : eval l y = none := by
  cases l with
  | nil => rfl
  | cons q l => exact eval_of_lt_lo h.tail (lt_of_lt_of_le hy h.hi_le_lo)

/-- Up to the end of its first piece a list only depends on that piece. -/
theorem eval_cons_of_lt_hi (h : Normal (p :: l)) (hy : y < p.hi) :
    eval (p :: l) y = if p.lo ≤ y then some p.val else none := by
  rw [eval, eval_tail_of_lt_hi h hy]
  simp only [hy, and_true]

/-- The end of a piece is where the list changes its value. -/
theorem eval_hi_ne (h : Normal (p :: l)) : eval (p :: l) p.hi ≠ some p.val := by
  rw [eval_cons_of_hi_le le_rfl]
  cases l with
  | nil => simp
  | cons q l =>
    obtain ⟨hle, hne⟩ := h.before q rfl
    obtain hlt | heq := lt_or_eq_of_le hle
    · rw [eval_of_lt_lo h.tail hlt]
      simp
    · rw [eval_cons_of_mem heq.ge (heq ▸ h.tail.lo_lt_hi)]
      exact fun hv => hne heq (Option.some.inj hv).symm

theorem lo_le_of_eval_eq (h : Normal (p :: l)) (h' : Normal (q :: l'))
    (he : eval (p :: l) = eval (q :: l')) : p.lo ≤ q.lo := by
  by_contra hlt
  have hq := eval_cons_of_mem (l := l') le_rfl h'.lo_lt_hi
  rw [← he, eval_of_lt_lo h (not_le.mp hlt)] at hq
  cases hq

theorem hi_le_of_eval_eq (h' : Normal (q :: l'))
    (he : eval (p :: l) = eval (q :: l')) (hlo : p.lo = q.lo) (hval : p.val = q.val) :
    p.hi ≤ q.hi := by
  by_contra hlt
  have hp : q.lo ≤ q.hi := le_of_lt h'.lo_lt_hi
  have hv := eval_cons_of_mem (l := l) (hlo.trans_le hp) (not_le.mp hlt)
  rw [he, hval] at hv
  exact eval_hi_ne h' hv

/-- Normal lists are normal forms: the function determines the list. -/
theorem eq_of_eval_eq (h : Normal l) (h' : Normal l') (he : eval l = eval l') : l = l' := by
  induction h generalizing l' with
  | nil =>
    cases h' with
    | nil => rfl
    | @cons q l' hlt _ _ =>
      have hq := eval_cons_of_mem (l := l') le_rfl hlt
      rw [← he] at hq
      cases hq
  | @cons p l hlt hb hn ih =>
    have h := Normal.cons hlt hb hn
    cases l' with
    | nil =>
      have hp := eval_cons_of_mem (l := l) le_rfl hlt
      rw [he] at hp
      cases hp
    | cons q l' =>
      have hlo : p.lo = q.lo := le_antisymm (lo_le_of_eval_eq h h' he) (lo_le_of_eval_eq h' h he.symm)
      have hval : p.val = q.val := by
        have hp := eval_cons_of_mem (l := l) le_rfl hlt
        rw [he, eval_cons_of_mem hlo.ge (hlo ▸ h'.lo_lt_hi)] at hp
        exact (Option.some.inj hp).symm
      have hhi : p.hi = q.hi := le_antisymm (hi_le_of_eval_eq h' he hlo hval)
        (hi_le_of_eval_eq h he.symm hlo.symm hval.symm)
      have htail : eval l = eval l' := by
        funext y
        obtain hy | hy := lt_or_ge y p.hi
        · rw [eval_tail_of_lt_hi h hy, eval_tail_of_lt_hi h' (hhi ▸ hy)]
        · rw [← eval_cons_of_hi_le hy, he, eval_cons_of_hi_le (hhi ▸ hy)]
      obtain ⟨lo, hi, val⟩ := p
      obtain ⟨lo', hi', val'⟩ := q
      simp only at hlo hval hhi
      rw [hlo, hhi, hval, ih h'.tail htail]

/-- The list without its first piece once that piece ends at or before `m`. -/
@[grind] def advance (m : β) : List (Piece β α) → List (Piece β α)
  | [] => []
  | p :: l => if p.hi = m then l else p :: l

theorem Normal.advance {m : β} (h : Normal (p :: l)) : Normal (advance m (p :: l)) := by
  rw [Pieces.advance]
  split
  · exact h.tail
  · exact h

theorem eval_advance {m : β} (hm : m ≤ y) : eval (advance m (p :: l)) y = eval (p :: l) y := by
  rw [advance]
  split
  · rename_i hp
    rw [eval_cons_of_hi_le (hp.trans_le hm)]
  · rfl

section Sweep

variable {γ : Type*}

/-- From `c` on, the two lists have values somewhere that are related by `Q`. -/
def Meets (c : β) (l : List (Piece β α)) (k : List (Piece β γ)) (Q : Option α → Option γ → Prop) :
    Prop :=
  ∃ y, c ≤ y ∧ Q (eval l y) (eval k y)

/-- The value that a list starting with `p` has at `y` before `p` ends. -/
def front (p : Piece β α) (y : β) : Option α := if p.lo ≤ y then some p.val else none

/-- One step of a sweep over two lists, from `c` to where the first of the two front pieces ends. -/
theorem meets_cons_iff {r : Piece β γ} {k : List (Piece β γ)} (h : Normal (p :: l))
    (h' : Normal (r :: k)) {c m : β} (hm : m = min p.hi r.hi) (hc : c ≤ m)
    (Q : Option α → Option γ → Prop) :
    Meets c (p :: l) (r :: k) Q ↔
      (∃ y, c ≤ y ∧ y < m ∧ Q (front p y) (front r y)) ∨
        Meets m (advance m (p :: l)) (advance m (r :: k)) Q := by
  have hfront : ∀ y, y < m → eval (p :: l) y = front p y ∧ eval (r :: k) y = front r y := by
    intro y hy
    rw [hm, lt_min_iff] at hy
    exact ⟨eval_cons_of_lt_hi h hy.1, eval_cons_of_lt_hi h' hy.2⟩
  constructor
  · rintro ⟨y, hcy, hQ⟩
    obtain hy | hy := lt_or_ge y m
    · rw [(hfront y hy).1, (hfront y hy).2] at hQ
      exact .inl ⟨y, hcy, hy, hQ⟩
    · rw [← eval_advance hy, ← eval_advance hy] at hQ
      exact .inr ⟨y, hy, hQ⟩
  · rintro (⟨y, hcy, hy, hQ⟩ | ⟨y, hy, hQ⟩)
    · rw [← (hfront y hy).1, ← (hfront y hy).2] at hQ
      exact ⟨y, hcy, hQ⟩
    · rw [eval_advance hy, eval_advance hy] at hQ
      exact ⟨y, hc.trans hy, hQ⟩

/-- Where a sweep over two lists stands at `c`: neither front piece has ended, and if one of them
began before `c` then the other one begins behind `c`, as `R` says. -/
structure Aligned (R : β → β → Prop) (c : β) (l : List (Piece β α)) (k : List (Piece β γ)) :
    Prop where
  left_hi : ∀ p ∈ l.head?, c < p.hi
  right_hi : ∀ r ∈ k.head?, c < r.hi
  left_lo : ∀ p ∈ l.head?, ∀ r ∈ k.head?, p.lo < c → R c r.lo
  right_lo : ∀ p ∈ l.head?, ∀ r ∈ k.head?, r.lo < c → R c p.lo

theorem Aligned.symm {R : β → β → Prop} {c : β} {k : List (Piece β γ)} (h : Aligned R c l k) :
    Aligned R c k l :=
  ⟨h.right_hi, h.left_hi, fun _ hp _ hr => h.right_lo _ hr _ hp, fun _ hp _ hr => h.left_lo _ hr _ hp⟩

theorem lt_hi_of_mem_advance {m : β} (h : Normal (p :: l)) (hm : m ≤ p.hi) :
    ∀ q ∈ (advance m (p :: l)).head?, m < q.hi := by
  intro q hq
  rw [advance] at hq
  split at hq
  · cases l with
    | nil => cases hq
    | cons q' l =>
      cases hq
      exact lt_of_le_of_lt (hm.trans h.hi_le_lo) h.tail.lo_lt_hi
  · rename_i hne
    cases hq
    exact lt_of_le_of_ne hm (Ne.symm hne)

/-- A front piece that began before `m` has stayed in place, so the other list has moved on. -/
theorem lo_of_mem_advance {R : β → β → Prop} {m : β} {r : Piece β γ} {k : List (Piece β γ)}
    (h : Normal (p :: l)) (hm : m = min p.hi r.hi) (hk : ∀ t ∈ k.head?, R r.hi t.lo) :
    ∀ q ∈ (advance m (p :: l)).head?, ∀ t ∈ (advance m (r :: k)).head?, q.lo < m → R m t.lo := by
  intro q hq t ht hlt
  rw [advance] at hq
  split at hq
  · rename_i hp
    cases l with
    | nil => cases hq
    | cons q' l =>
      cases hq
      exact absurd (hp ▸ h.hi_le_lo) (not_le_of_gt hlt)
  · rename_i hne
    have hr : r.hi = m := by
      obtain hc | hc := min_choice p.hi r.hi
      · exact absurd (hm.trans hc).symm hne
      · exact (hm.trans hc).symm
    rw [advance, if_pos hr] at ht
    exact hr ▸ hk t ht

theorem Aligned.advance {R : β → β → Prop} {m : β} {r : Piece β γ} {k : List (Piece β γ)}
    (h : Normal (p :: l)) (h' : Normal (r :: k)) (hm : m = min p.hi r.hi)
    (hl : ∀ q ∈ l.head?, R p.hi q.lo) (hk : ∀ t ∈ k.head?, R r.hi t.lo) :
    Aligned R m (advance m (p :: l)) (advance m (r :: k)) where
  left_hi := lt_hi_of_mem_advance h (hm ▸ min_le_left _ _)
  right_hi := lt_hi_of_mem_advance h' (hm ▸ min_le_right _ _)
  left_lo := lo_of_mem_advance h hm hk
  right_lo := fun q hq t ht => lo_of_mem_advance h' (hm.trans (min_comm _ _)) hl t ht q hq

theorem Aligned.start {R : β → β → Prop} {r : Piece β γ} {k : List (Piece β γ)} (h : Normal (p :: l))
    (h' : Normal (r :: k)) : Aligned R (min p.lo r.lo) (p :: l) (r :: k) where
  left_hi := by
    rintro _ ⟨⟩
    exact lt_of_le_of_lt (min_le_left _ _) h.lo_lt_hi
  right_hi := by
    rintro _ ⟨⟩
    exact lt_of_le_of_lt (min_le_right _ _) h'.lo_lt_hi
  left_lo := by
    rintro _ ⟨⟩ _ ⟨⟩ hlt
    exact absurd hlt (not_lt_of_ge (min_le_left _ _))
  right_lo := by
    rintro _ ⟨⟩ _ ⟨⟩ hlt
    exact absurd hlt (not_lt_of_ge (min_le_right _ _))

theorem length_advance_add_lt {m : β} {r : Piece β γ} {k : List (Piece β γ)}
    (hm : m = min p.hi r.hi) :
    (advance m (p :: l)).length + (advance m (r :: k)).length < (p :: l).length + (r :: k).length := by
  rw [advance, advance]
  obtain hc | hc := min_choice p.hi r.hi
  · rw [if_pos (hm.trans hc).symm]
    split <;> simp only [List.length_cons] <;> omega
  · rw [if_pos (hm.trans hc).symm]
    split <;> simp only [List.length_cons] <;> omega

end Sweep

end Pieces

end Colama.Lib

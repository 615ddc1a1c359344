import Mathlib.Data.List.Induction
import Mathlib.Tactic

namespace Colama.Lib

section

variable {ε : Type*} {P Q : List ε → ε → Prop} {l : List ε} {e : ε}

/-- Each event of a history meets a condition on what came before it. -/
def Before (P : List ε → ε → Prop) (l : List ε) : Prop := ∀ pre e post, l = pre ++ e :: post → P pre e

theorem before_nil : Before P [] := by
  intro pre e post h
  exact absurd h (by simp)

theorem before_snoc : Before P (l ++ [e]) ↔ Before P l ∧ P l e := by
  constructor
  · intro h
    constructor
    · intro pre a post hl
      apply h pre a (post ++ [e])
      rw [hl, List.append_assoc, List.cons_append]
    · exact h l e [] rfl
  · rintro ⟨h, he⟩ pre a post hl
    rcases List.eq_nil_or_concat post with rfl | ⟨post, b, rfl⟩
    · obtain ⟨rfl, hab⟩ := List.append_inj' hl rfl
      obtain rfl : e = a := by simpa using hab
      exact he
    · rw [List.concat_eq_append, ← List.cons_append, ← List.append_assoc] at hl
      obtain ⟨rfl, -⟩ := List.append_inj' hl rfl
      exact h pre a post rfl

end

section

variable {β : Type*} {p : β → Bool}

/-- The last member of a list that meets `p`. -/
def newest (p : β → Bool) (l : List β) : Option β := l.findRev? p

theorem newest_nil : newest p [] = none := rfl

theorem newest_append (l l' : List β) : newest p (l ++ l') = (newest p l').or (newest p l) := by
  induction l with
  | nil => simp [newest, List.findRev?]
  | cons b l ih =>
    have hcons : ∀ l, newest p (b :: l) = (newest p l).or (if p b then some b else none) := by
      intro l
      simp only [newest, List.findRev?]
      cases l.findRev? p <;> rfl
    rw [List.cons_append, hcons, hcons, ih, Option.or_assoc]

theorem newest_singleton (b : β) : newest p [b] = if p b then some b else none := rfl

theorem newest_concat (l : List β) (b : β) : newest p (l ++ [b]) = if p b then some b else newest p l := by
  rw [newest_append, newest_singleton]
  cases p b <;> rfl

theorem newest_mid (l l' : List β) (b : β) :
    newest p (l ++ b :: l') = (newest p l').or (if p b then some b else newest p l) := by
  rw [List.append_cons, newest_append, newest_concat]

theorem newest_mem {l : List β} {b : β} (h : newest p l = some b) : b ∈ l ∧ p b = true := by
  induction l using List.reverseRecOn with
  | nil => cases h
  | append_singleton l c ih =>
    rw [newest_concat] at h
    split at h
    · rename_i hc
      cases h
      exact ⟨by simp, hc⟩
    · exact ⟨List.mem_append_left _ (ih h).1, (ih h).2⟩

theorem newest_eq_none {l : List β} : newest p l = none ↔ ∀ b ∈ l, p b = false := by
  induction l using List.reverseRecOn with
  | nil => simp [newest_nil]
  | append_singleton l c ih =>
    rw [newest_concat]
    cases hc : p c <;> simp [ih, hc, or_imp, forall_and]

theorem eq_take_cons_drop {l : List β} {i : Nat} {b : β} (h : l[i]? = some b) :
    l = l.take i ++ b :: l.drop (i + 1) := by
  obtain ⟨hi, rfl⟩ := List.getElem?_eq_some_iff.mp h
  rw [← List.drop_eq_getElem_cons hi, List.take_append_drop]

/-- A member that is replaced by one that meets `p` as it did is the newest if it was. -/
theorem newest_set {l : List β} {i : Nat} {b b' : β} (h : l[i]? = some b) (hp : p b' = p b) :
    newest p (l.set i b') = newest p l ∨ newest p l = some b ∧ newest p (l.set i b') = some b' := by
  have hi : i < l.length := (List.getElem?_eq_some_iff.mp h).1
  rw [List.set_eq_take_append_cons_drop, if_pos hi, newest_mid, hp]
  have hl : newest p l = (newest p (l.drop (i + 1))).or (if p b then some b else newest p (l.take i)) := by
    conv_lhs => rw [eq_take_cons_drop h, newest_mid]
  rw [hl]
  cases newest p (l.drop (i + 1)) with
  | some c => exact .inl rfl
  | none =>
    cases p b with
    | true => exact .inr ⟨rfl, rfl⟩
    | false => exact .inl rfl

theorem newest_eraseIdx_other {l : List β} {i : Nat} {b : β} (h : l[i]? = some b) (hp : p b = false) :
    newest p (l.eraseIdx i) = newest p l := by
  conv_rhs => rw [eq_take_cons_drop h, newest_mid, hp]
  rw [List.eraseIdx_eq_take_drop_succ, newest_append]
  rfl

/-- Without the first member that meets `p` the newest is the same, or there is none. -/
theorem newest_eraseIdx_first {l : List β} {i : Nat} {b : β} (h : l[i]? = some b) (hp : p b = true)
    (hfirst : ∀ c ∈ l.take i, p c = false) :
    newest p (l.eraseIdx i) = newest p l ∨ newest p (l.eraseIdx i) = none ∧ newest p l = some b := by
  have hl : newest p l = (newest p (l.drop (i + 1))).or (some b) := by
    conv_lhs => rw [eq_take_cons_drop h, newest_mid, hp, if_pos rfl]
  rw [List.eraseIdx_eq_take_drop_succ, newest_append, newest_eq_none.2 hfirst, hl]
  cases newest p (l.drop (i + 1)) with
  | some c => exact .inl rfl
  | none => exact .inr ⟨rfl, rfl⟩

end

end Colama.Lib

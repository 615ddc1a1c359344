import Mathlib.Tactic

namespace Colama.Lib

/-- The states reached by the runs from `s₀` whose steps, in the state they find, meet a condition. -/
inductive Reachable {σ α : Type*} (step : σ → α → σ → Prop) (ok : σ → α → Prop) (s₀ : σ) : σ → Prop
  | init : Reachable step ok s₀ s₀
  | step {s s' : σ} {a : α} (h : Reachable step ok s₀ s) (ha : ok s a) (hs : step s a s') :
    Reachable step ok s₀ s'

variable {σ α : Type*} {step : σ → α → σ → Prop} {ok : σ → α → Prop} {s₀ s : σ}

/-- What holds at first and is kept by each step holds in every state that is reached. -/
theorem Reachable.invariant (Inv : σ → Prop) (h : Reachable step ok s₀ s) (hinit : Inv s₀)
    (hstep : ∀ s a s', Inv s → ok s a → step s a s' → Inv s') : Inv s := by
  induction h with
  | init => exact hinit
  | step _ ha hs ih => exact hstep _ _ _ ih ha hs

theorem Reachable.mono {ok' : σ → α → Prop} (h : Reachable step ok s₀ s) (hok : ∀ s a, ok s a → ok' s a) :
    Reachable step ok' s₀ s := by
  induction h with
  | init => exact .init
  | step _ ha hs ih => exact ih.step (hok _ _ ha) hs

/-- The steps of a function, taken one after the other. -/
theorem Reachable.foldlM {f : σ → α → Option σ} {s' : σ} {l : List α}
    (h : Reachable (fun s a s' => f s a = some s') ok s₀ s) (hok : ∀ s, ∀ a ∈ l, ok s a)
    (hl : l.foldlM f s = some s') : Reachable (fun s a s' => f s a = some s') ok s₀ s' := by
  induction l generalizing s with
  | nil =>
    cases hl
    exact h
  | cons a l ih =>
    rw [List.foldlM_cons] at hl
    obtain ⟨s₁, hs, hl⟩ := Option.bind_eq_some_iff.mp hl
    exact ih (h.step (hok s a List.mem_cons_self) hs) (fun s b hb => hok s b (List.mem_cons_of_mem a hb)) hl

/-- The steps of a function that meet a condition that can be decided. -/
theorem Reachable.foldlM_checked {f : σ → α → Option σ} [∀ s a, Decidable (ok s a)] {s' : σ} {l : List α}
    (hl : l.foldlM (fun s a => if ok s a then f s a else none) s₀ = some s') :
    Reachable (fun s a s' => f s a = some s') ok s₀ s' := by
  have hrun : Reachable _ (fun _ _ => True) s₀ s' := .foldlM .init (fun _ _ _ => trivial) hl
  refine hrun.invariant _ .init fun s a s' hs _ hstep => ?_
  split at hstep
  · rename_i hok
    exact hs.step hok hstep
  · cases hstep

theorem Reachable.foldl {f : σ → α → σ} (l : List α)
    (hok : ∀ n (hn : n < l.length), ok ((l.take n).foldl f s₀) l[n]) :
    Reachable (fun s a s' => f s a = s') ok s₀ (l.foldl f s₀) := by
  induction l using List.reverseRecOn with
  | nil => exact .init
  | append_singleton l a ih =>
    have hlen : (l ++ [a]).length = l.length + 1 := List.length_append
    rw [List.foldl_append]
    refine .step (a := a) (ih fun n hn => ?_) ?_ rfl
    · have h := hok n (by omega)
      rwa [List.take_append_of_le_length hn.le, List.getElem_append_left hn] at h
    · have h := hok l.length (by omega)
      rwa [List.take_left, List.getElem_concat_length rfl] at h

section Fallible

variable {ε : Type*} (f : σ → α → Except ε σ)

/-- Each step of a run meets a condition in the state it finds. A step that fails ends the run. -/
def Along (P : σ → α → Prop) : List α → σ → Prop
  | [], _ => True
  | a :: l, s => P s a ∧ ∀ s', f s a = .ok s' → Along P l s'

/-- Each state of a run is good, and no step of it fails with `err`. -/
def Safe (Good : σ → Prop) (err : ε) : List α → σ → Prop
  | [], s => Good s
  | a :: l, s => Good s ∧ f s a ≠ .error err ∧ ∀ s', f s a = .ok s' → Safe Good err l s'

variable {f} {P : σ → α → Prop} {Good : σ → Prop} {err : ε}

/-- Where the condition of a step is exact, so is that of a run: a step that does not meet it fails or leaves a state that
is not good. -/
theorem safe_iff_along_of_bad (Inv : σ → Prop) (hgood : ∀ s, Inv s → Good s)
    (hok : ∀ s a, Inv s → P s a → f s a ≠ .error err ∧ ∀ s', f s a = .ok s' → Inv s')
    (hbad : ∀ s a, Inv s → ¬P s a → f s a = .error err ∨ ∃ s', f s a = .ok s' ∧ ¬Good s') {l : List α} {s : σ}
    (hs : Inv s) : Safe f Good err l s ↔ Along f P l s := by
  induction l generalizing s with
  | nil => exact ⟨fun _ => trivial, fun _ => hgood s hs⟩
  | cons a l ih =>
    constructor
    · rintro ⟨-, hne, hrest⟩
      have hP : P s a := by
        by_contra hP
        rcases hbad s a hs hP with herr | ⟨s', hs', hnot⟩
        · exact hne herr
        · have hsafe := hrest s' hs'
          cases l with
          | nil => exact hnot hsafe
          | cons b l => exact hnot hsafe.1
      exact ⟨hP, fun s' hs' => (ih ((hok s a hs hP).2 s' hs')).mp (hrest s' hs')⟩
    · rintro ⟨hP, hrest⟩
      obtain ⟨hne, hInv⟩ := hok s a hs hP
      exact ⟨hgood s hs, hne, fun s' hs' => (ih (hInv s' hs')).mpr (hrest s' hs')⟩

theorem safe_iff_along (Inv : σ → Prop) (hgood : ∀ s, Inv s → Good s)
    (hok : ∀ s a, Inv s → P s a → f s a ≠ .error err ∧ ∀ s', f s a = .ok s' → Inv s')
    (hbad : ∀ s a, Inv s → ¬P s a → f s a = .error err) {l : List α} {s : σ} (hs : Inv s) :
    Safe f Good err l s ↔ Along f P l s :=
  safe_iff_along_of_bad Inv hgood hok (fun s a hs' hP => .inl (hbad s a hs' hP)) hs

theorem Safe.foldlM_ne {l : List α} {s : σ} (h : Safe f Good err l s) : l.foldlM f s ≠ .error err := by
  induction l generalizing s with
  | nil => exact nofun
  | cons a l ih =>
    obtain ⟨-, hne, hrest⟩ := h
    rw [List.foldlM_cons]
    cases hs : f s a with
    | error e => exact fun heq => hne (hs.trans heq)
    | ok s' => exact ih (hrest s' hs)

end Fallible

section Total

variable (f : σ → α → σ)

/-- Each step of a run meets a condition in the state it finds. -/
def EachStep (P : σ → α → Prop) : List α → σ → Prop
  | [], _ => True
  | a :: l, s => P s a ∧ EachStep P l (f s a)

variable {f} {P : σ → α → Prop} {Good : σ → Prop}

end Total

end Colama.Lib

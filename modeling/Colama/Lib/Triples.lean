namespace Colama.Lib

variable {ε σ α β : Type}

/-- From every state in `P` the program ends with a result that is in `Q`, or with an error that is in `E`. -/
def Triple (P : σ → Prop) (x : EStateM ε σ α) (Q : α → σ → Prop) (E : ε → σ → Prop) : Prop :=
  ∀ s, P s → match x s with
    | .ok a s' => Q a s'
    | .error e s' => E e s'

namespace Triple

variable {P P' : σ → Prop} {Q Q' : α → σ → Prop} {R : β → σ → Prop} {E E' : ε → σ → Prop} {x : EStateM ε σ α}

theorem ret {a : α} (h : ∀ s, P s → Q a s) : Triple P (pure a : EStateM ε σ α) Q E := h

theorem raise {e : ε} (h : ∀ s, P s → E e s) : Triple P (throw e : EStateM ε σ α) Q E := h

theorem seq {f : α → EStateM ε σ β} (hx : Triple P x Q E) (hf : ∀ a, Triple (Q a) (f a) R E) :
    Triple P (x >>= f) R E := by
  intro s hs
  have h := hx s hs
  simp only [bind, EStateM.bind]
  cases hr : x s with
  | ok a s' =>
    rw [hr] at h
    exact hf a s' h
  | error e s' =>
    rw [hr] at h
    exact h

theorem read {R : σ → σ → Prop} (h : ∀ s, P s → R s s) : Triple P (get : EStateM ε σ σ) R E := h

theorem update {f : σ → σ} {R : PUnit → σ → Prop} (h : ∀ s, P s → R ⟨⟩ (f s)) :
    Triple P (modify f : EStateM ε σ PUnit) R E := h

theorem conseq (hx : Triple P x Q E) (hP : ∀ s, P' s → P s) (hQ : ∀ a s, Q a s → Q' a s) : Triple P' x Q' E := by
  intro s hs
  have h := hx s (hP s hs)
  cases hr : x s with
  | ok a s' =>
    rw [hr] at h
    exact hQ a s' h
  | error e s' =>
    rw [hr] at h
    exact h

theorem weaken (hx : Triple P x Q E) (hP : ∀ s, P' s → P s) : Triple P' x Q E := hx.conseq hP fun _ _ h => h

theorem split {c : Prop} [Decidable c] {y : EStateM ε σ α} (hx : c → Triple P x Q E) (hy : ¬ c → Triple P y Q E) :
    Triple P (if c then x else y) Q E := by
  by_cases h : c
  · rw [if_pos h]
    exact hx h
  · rw [if_neg h]
    exact hy h

/-- What does not depend on the state may be taken out of the precondition. -/
theorem of_pre {p : Prop} (h : p → Triple P x Q E) : Triple (fun s => p ∧ P s) x Q E := fun s hs => h hs.1 s hs.2

end Triple

section Mirrors

variable {δ τ : Type} {R : σ → τ → Prop} {s : σ} {s' : τ} {x : EStateM ε σ α} {x' : EStateM δ τ α}

/-- Where `x` ends from `s` with a result, `x'` ends from `s'` with the same one, and the states are related then. -/
def Mirrors (R : σ → τ → Prop) (s : σ) (s' : τ) (x : EStateM ε σ α) (x' : EStateM δ τ α) : Prop :=
  ∀ a s₁, x s = .ok a s₁ → ∃ s₁', x' s' = .ok a s₁' ∧ R s₁ s₁'

namespace Mirrors

theorem ret (h : R s s') (a : α) : Mirrors R s s' (pure a : EStateM ε σ α) (pure a : EStateM δ τ α) := by
  rintro _ _ ⟨⟩
  exact ⟨s', rfl, h⟩

theorem raise {e : ε} : Mirrors R s s' (throw e : EStateM ε σ α) x' := by
  rintro _ _ ⟨⟩

theorem seq {f : α → EStateM ε σ β} {f' : α → EStateM δ τ β} (hx : Mirrors R s s' x x')
    (hf : ∀ a s₁ s₁', R s₁ s₁' → Mirrors R s₁ s₁' (f a) (f' a)) : Mirrors R s s' (x >>= f) (x' >>= f') := by
  intro b s₂ h
  cases hr : x s with
  | error e s₁ =>
    simp only [bind, EStateM.bind, hr] at h
    cases h
  | ok a s₁ =>
    simp only [bind, EStateM.bind, hr] at h
    obtain ⟨s₁', hr', hR⟩ := hx a s₁ hr
    obtain ⟨s₂', h', hR'⟩ := hf a s₁ s₁' hR b s₂ h
    exact ⟨s₂', by simp only [bind, EStateM.bind, hr', h'], hR'⟩

theorem read {f : σ → EStateM ε σ β} {f' : τ → EStateM δ τ β} (h : Mirrors R s s' (f s) (f' s')) :
    Mirrors R s s' (get >>= f) (get >>= f') := h

theorem split {c c' : Prop} [Decidable c] [Decidable c'] {y : EStateM ε σ α} {y' : EStateM δ τ α} (hc : c ↔ c')
    (hx : c → Mirrors R s s' x x') (hy : ¬c → Mirrors R s s' y y') :
    Mirrors R s s' (if c then x else y) (if c' then x' else y') := by
  by_cases h : c
  · rw [if_pos h, if_pos (hc.mp h)]
    exact hx h
  · rw [if_neg h, if_neg (mt hc.mpr h)]
    exact hy h

/-- What `x` is known to end with may be used of `f`. -/
theorem seq_of {f : α → EStateM ε σ β} {f' : α → EStateM δ τ β} {p : α → Prop} (hx : Mirrors R s s' x x')
    (hp : ∀ a s₁, x s = .ok a s₁ → p a) (hf : ∀ a s₁ s₁', p a → R s₁ s₁' → Mirrors R s₁ s₁' (f a) (f' a)) :
    Mirrors R s s' (x >>= f) (x' >>= f') := by
  intro b s₂ h
  cases hr : x s with
  | error e s₁ =>
    simp only [bind, EStateM.bind, hr] at h
    cases h
  | ok a s₁ =>
    simp only [bind, EStateM.bind, hr] at h
    obtain ⟨s₁', hr', hR⟩ := hx a s₁ hr
    obtain ⟨s₂', h', hR'⟩ := hf a s₁ s₁' (hp a s₁ hr) hR b s₂ h
    exact ⟨s₂', by simp only [bind, EStateM.bind, hr', h'], hR'⟩

end Mirrors

end Mirrors

end Colama.Lib

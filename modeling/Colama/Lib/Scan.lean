import Mathlib.Data.List.Basic

namespace Colama.Lib

/-- What can be foretold of a program from a part of its state: the items that it will handle, and its end unless
it stops early. -/
def Scan (ι τ α : Type) := τ → List ι × Option (α × τ)

namespace Scan

variable {ι τ α β : Type}

def bind (x : Scan ι τ α) (f : α → Scan ι τ β) : Scan ι τ β := fun u =>
  match x u with
  | (items, none) => (items, none)
  | (items, some (a, u')) => (items ++ (f a u').1, (f a u').2)

instance : Monad (Scan ι τ) where
  pure a := fun u => ([], some (a, u))
  bind := bind

def stop : Scan ι τ α := fun _ => ([], none)

def emit (i : ι) : Scan ι τ PUnit := fun u => ([i], some (⟨⟩, u))

def look : Scan ι τ τ := fun u => ([], some (u, u))

def move (f : τ → τ) : Scan ι τ PUnit := fun u => ([], some (⟨⟩, f u))

theorem bind_of_none {x : Scan ι τ α} {f : α → Scan ι τ β} {u : τ} (h : (x u).2 = none) :
    (x >>= f) u = ((x u).1, none) := by
  change bind x f u = _
  rw [bind]
  generalize x u = r at h ⊢
  obtain ⟨items, _ | _⟩ := r
  · rfl
  · cases h

theorem bind_of_some {x : Scan ι τ α} {f : α → Scan ι τ β} {u u' : τ} {a : α} (h : (x u).2 = some (a, u')) :
    (x >>= f) u = ((x u).1 ++ (f a u').1, (f a u').2) := by
  change bind x f u = _
  rw [bind]
  generalize x u = r at h ⊢
  obtain ⟨items, _ | _⟩ := r
  · cases h
  · cases h
    rfl

end Scan

variable {ι τ ε σ α β : Type}

/-- `x` is `y` with a check of each item, and `g` foretells the items and how `y` ends. From `s`, the first item
that is not `ok` stops `x` with `fault`; if there is none, `x` does what `y` does. -/
structure Guards (π : σ → τ) (ok : ι → Prop) (fault : ε) (s : σ) (x y : EStateM ε σ α) (g : Scan ι τ α) : Prop where
  faults : (∃ i ∈ (g (π s)).1, ¬ok i) → ∃ s', x s = .error fault s'
  agrees : (∀ i ∈ (g (π s)).1, ok i) → x s = y s
  ends : match y s with
    | .ok a s' => (g (π s)).2 = some (a, π s')
    | .error e _ => (g (π s)).2 = none ∧ e ≠ fault

namespace Guards

variable {π : σ → τ} {ok : ι → Prop} {fault : ε} {s s' : σ} {x y : EStateM ε σ α} {g : Scan ι τ α}

/-- Where there is nothing to check, there is one program. -/
theorem silent (hg : (g (π s)).1 = []) (hends : match x s with
    | .ok a s' => (g (π s)).2 = some (a, π s')
    | .error e _ => (g (π s)).2 = none ∧ e ≠ fault) : Guards π ok fault s x x g := by
  refine ⟨fun ⟨i, hi, _⟩ => ?_, fun _ => rfl, hends⟩
  rw [hg] at hi
  cases hi

theorem of_ok {a : α} (hrun : x s = .ok a s') (hscan : g (π s) = ([], some (a, π s'))) :
    Guards π ok fault s x x g :=
  silent (congrArg Prod.fst hscan) (by rw [hrun]; exact congrArg Prod.snd hscan)

theorem of_error {e : ε} (hrun : x s = .error e s') (he : e ≠ fault) (hscan : g (π s) = ([], none)) :
    Guards π ok fault s x x g :=
  silent (congrArg Prod.fst hscan) (by rw [hrun]; exact ⟨congrArg Prod.snd hscan, he⟩)

theorem ret (a : α) : Guards π ok fault s (pure a) (pure a) (pure a) := silent rfl rfl

theorem raise {e : ε} (he : e ≠ fault) : Guards π ok fault s (throw e) (throw e) (Scan.stop : Scan ι τ α) :=
  silent rfl ⟨rfl, he⟩

/-- The check of an item. -/
theorem check {i : ι} (hok : ok i → x = y) (hbad : ¬ok i → ∀ s, x s = .error fault s) {h : PUnit → Scan ι τ α}
    (hy : Guards π ok fault s y y (h ⟨⟩)) : Guards π ok fault s x y (Scan.emit i >>= h) := by
  have hbind : (Scan.emit i >>= h) (π s) = (i :: (h ⟨⟩ (π s)).1, (h ⟨⟩ (π s)).2) := rfl
  refine ⟨?_, fun hall => ?_, ?_⟩
  · rw [hbind]
    rintro ⟨j, hj, hnot⟩
    by_cases hi : ok i
    · rw [hok hi]
      rcases List.mem_cons.mp hj with rfl | hj
      · exact absurd hi hnot
      · exact hy.faults ⟨j, hj, hnot⟩
    · exact ⟨s, hbad hi s⟩
  · rw [hbind] at hall
    rw [hok (hall i List.mem_cons_self)]
  · rw [hbind]
    exact hy.ends

theorem seq {f f' : α → EStateM ε σ β} {h : α → Scan ι τ β} (hx : Guards π ok fault s x y g)
    (hf : ∀ a s', y s = .ok a s' → Guards π ok fault s' (f a) (f' a) (h a)) :
    Guards π ok fault s (x >>= f) (y >>= f') (g >>= h) := by
  have hends := hx.ends
  cases hy : y s with
  | error e s' =>
    simp only [hy] at hends
    have hrun : (y >>= f') s = .error e s' := by simp only [Bind.bind, EStateM.bind, hy]
    have hscan : (g >>= h) (π s) = ((g (π s)).1, none) := Scan.bind_of_none hends.1
    refine ⟨fun hbad => ?_, fun hall => ?_, ?_⟩
    · rw [hscan] at hbad
      obtain ⟨s'', hs''⟩ := hx.faults hbad
      exact ⟨s'', by simp only [Bind.bind, EStateM.bind, hs'']⟩
    · rw [hscan] at hall
      rw [hrun]
      simp only [Bind.bind, EStateM.bind, hx.agrees hall, hy]
    · rw [hrun, hscan]
      exact ⟨rfl, hends.2⟩
  | ok a s' =>
    simp only [hy] at hends
    have hrun : (y >>= f') s = f' a s' := by simp only [Bind.bind, EStateM.bind, hy]
    have hscan : (g >>= h) (π s) = ((g (π s)).1 ++ (h a (π s')).1, (h a (π s')).2) := Scan.bind_of_some hends
    have hrest := hf a s' hy
    refine ⟨?_, fun hall => ?_, ?_⟩
    · rw [hscan]
      rintro ⟨i, hi, hnot⟩
      by_cases hfirst : ∀ j ∈ (g (π s)).1, ok j
      · have hx' : (x >>= f) s = f a s' := by simp only [Bind.bind, EStateM.bind, hx.agrees hfirst, hy]
        rw [hx']
        refine hrest.faults ⟨i, ?_, hnot⟩
        exact (List.mem_append.mp hi).resolve_left fun hi => hnot (hfirst i hi)
      · push Not at hfirst
        obtain ⟨s'', hs''⟩ := hx.faults hfirst
        exact ⟨s'', by simp only [Bind.bind, EStateM.bind, hs'']⟩
    · rw [hscan] at hall
      have hx' : (x >>= f) s = f a s' := by
        simp only [Bind.bind, EStateM.bind, hx.agrees fun i hi => hall i (List.mem_append_left _ hi), hy]
      rw [hx', hrun]
      exact hrest.agrees fun i hi => hall i (List.mem_append_right _ hi)
    · rw [hrun, hscan]
      exact hrest.ends

/-- What is read of the state is known to the scan as far as it shows. -/
theorem read {f f' : σ → EStateM ε σ β} {h : τ → Scan ι τ β} (hf : Guards π ok fault s (f s) (f' s) (h (π s))) :
    Guards π ok fault s (get >>= f) (get >>= f') (Scan.look >>= h) := ⟨hf.faults, hf.agrees, hf.ends⟩

theorem split {c c' : Prop} [Decidable c] [Decidable c'] {x' y' : EStateM ε σ α} {g' : Scan ι τ α} (hc : c ↔ c')
    (ht : c → Guards π ok fault s x y g) (hf : ¬c → Guards π ok fault s x' y' g') :
    Guards π ok fault s (if c then x else x') (if c then y else y') (if c' then g else g') := by
  by_cases h : c
  · rw [if_pos h, if_pos h, if_pos (hc.mp h)]
    exact ht h
  · rw [if_neg h, if_neg h, if_neg fun h' => h (hc.mpr h')]
    exact hf h

theorem no_fault_iff (h : Guards π ok fault s x y g) : (∀ s', x s ≠ .error fault s') ↔ ∀ i ∈ (g (π s)).1, ok i := by
  constructor
  · intro hno i hi
    by_contra hbad
    obtain ⟨s', hs'⟩ := h.faults ⟨i, hi, hbad⟩
    exact hno s' hs'
  · intro hall s' hs'
    have hends := h.ends
    rw [← h.agrees hall, hs'] at hends
    exact hends.2 rfl

end Guards

end Colama.Lib

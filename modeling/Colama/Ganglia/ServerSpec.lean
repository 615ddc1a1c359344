import Colama.Ganglia.Server

namespace Colama.Ganglia.Server

@[grind] def Step.run (w : Pattern) (client : Client) : Step → Client
  | .sum text => if client.valid then setSum text client else client
  | .print items => (xmlPrint w items client).1

def runSteps (w : Pattern) (steps : List Step) (client : Client) : Client := steps.foldl (Step.run w) client

/-- The walk over the pairs of a table. -/
@[grind] def walk {V : Type} (func : Datum → V → Action) : List (Datum × V) → Action
  | [], client => (client, false)
  | p :: ps, client =>
    if (func p.1 p.2 client).2 then ((func p.1 p.2 client).1, true) else walk func ps (func p.1 p.2 client).1

section

variable {w : Pattern} {client : Client} {items : List Item}

theorem xmlPrint_invalid (hvalid : client.valid = false) : xmlPrint w items client = (client, true) := if_pos hvalid

theorem xmlPrint_same (w : Pattern) (items : List Item) (client : Client) :
    (xmlPrint w items client).1.filter = client.filter ∧ (xmlPrint w items client).1.now = client.now := by
  rw [xmlPrint]
  split
  · exact ⟨rfl, rfl⟩
  · dsimp only
    split <;> exact ⟨rfl, rfl⟩

theorem xmlPrint_exact (w : Pattern) (items : List Item) (client : Client) :
    (xmlPrint w items client).2 = true ↔ (xmlPrint w items client).1.valid = false := by
  rw [xmlPrint]
  split
  · next hvalid => exact iff_of_true rfl hvalid
  · next hvalid =>
    dsimp only
    split
    · exact iff_of_true rfl rfl
    · exact iff_of_false Bool.false_ne_true hvalid

theorem Step.run_invalid (step : Step) (hvalid : client.valid = false) : step.run w client = client := by
  cases step with
  | sum text => exact if_neg (by rw [hvalid]; exact Bool.false_ne_true)
  | print items => exact congrArg Prod.fst (xmlPrint_invalid hvalid)

theorem Step.run_same (step : Step) (client : Client) :
    (step.run w client).filter = client.filter ∧ (step.run w client).now = client.now := by
  cases step with
  | sum text => by_cases hvalid : client.valid = true <;> simp [Step.run, setSum, hvalid]
  | print items => exact xmlPrint_same w items client

theorem runSteps_invalid (steps : List Step) (hvalid : client.valid = false) : runSteps w steps client = client := by
  induction steps with
  | nil => rfl
  | cons step steps ih => rw [runSteps, List.foldl_cons, step.run_invalid hvalid]; exact ih

theorem runSteps_same (steps : List Step) (client : Client) :
    (runSteps w steps client).filter = client.filter ∧ (runSteps w steps client).now = client.now := by
  induction steps generalizing client with
  | nil => exact ⟨rfl, rfl⟩
  | cons step steps ih =>
    obtain ⟨hfilter, hnow⟩ := ih (step.run w client)
    exact ⟨hfilter.trans (step.run_same client).1, hnow.trans (step.run_same client).2⟩

theorem runSteps_append (w : Pattern) (steps steps' : List Step) (client : Client) :
    runSteps w (steps ++ steps') client = runSteps w steps' (runSteps w steps client) := List.foldl_append

end

section

variable (w : Pattern) (filter : Filter) (now : ℤ)

/-- A client that is served with that filter, at that time. -/
structure Served (client : Client) : Prop where
  valid : client.valid = true
  filter : client.filter = filter
  now : client.now = now

/-- What an action prints for a client. -/
def Runs (action : Action) (steps : List Step) : Prop :=
  ∀ client, Served filter now client → (action client).1 = runSteps w steps client

/-- It fails if and only if the socket does. -/
def Exact (action : Action) : Prop :=
  ∀ client, Served filter now client → ((action client).2 = true ↔ (action client).1.valid = false)

structure Reports (action : Action) (steps : List Step) : Prop where
  runs : Runs w filter now action steps
  exact : Exact filter now action

/-- An action does nothing for a client whose socket has failed. -/
def Idle (action : Action) : Prop := ∀ client, client.valid = false → (action client).1 = client

def Refuses (action : Action) : Prop := ∀ client, client.valid = false → action client = (client, true)

end

section

variable {w : Pattern} {filter : Filter} {now : ℤ} {client : Client} {A B : Action} {l l' : List Step}

theorem Refuses.idle (h : Refuses A) : Idle A := fun client hvalid => congrArg Prod.fst (h client hvalid)

theorem Served.run (h : Served filter now client) (hvalid : (runSteps w l client).valid = true) :
    Served filter now (runSteps w l client) :=
  ⟨hvalid, (runSteps_same l client).1.trans h.filter, (runSteps_same l client).2.trans h.now⟩

theorem Runs.nil : Runs w filter now (fun client => (client, false)) [] := fun _ _ => rfl

theorem Reports.nil : Reports w filter now (fun client => (client, false)) [] :=
  ⟨Runs.nil, fun client hserved => iff_of_false Bool.false_ne_true (by simp [hserved.valid])⟩

/-- What is done whether or not the first action has failed. -/
theorem Runs.seq (hA : Runs w filter now A l) (hB : Runs w filter now B l') (hidle : Idle B) :
    Runs w filter now (fun client => B (A client).1) (l ++ l') := by
  intro client hserved
  show (B (A client).1).1 = _
  rw [runSteps_append, hA client hserved]
  cases hvalid : (runSteps w l client).valid with
  | false => rw [hidle _ hvalid, runSteps_invalid _ hvalid]
  | true => exact hB _ (hserved.run hvalid)

theorem Reports.seq (hA : Runs w filter now A l) (hB : Reports w filter now B l') (hrefuses : Refuses B) :
    Reports w filter now (fun client => B (A client).1) (l ++ l') := by
  refine ⟨hA.seq hB.runs hrefuses.idle, fun client hserved => ?_⟩
  show (B (A client).1).2 = true ↔ (B (A client).1).1.valid = false
  rw [hA client hserved]
  cases hvalid : (runSteps w l client).valid with
  | false =>
    rw [hrefuses _ hvalid]
    exact iff_of_true rfl hvalid
  | true => exact hB.exact _ (hserved.run hvalid)

/-- What is done if the first action has not failed. -/
theorem Reports.bind (hA : Reports w filter now A l) (hB : Reports w filter now B l') :
    Reports w filter now (fun client => if (A client).2 then ((A client).1, true) else B (A client).1) (l ++ l') := by
  have hcases : ∀ client, Served filter now client →
      (A client).2 = true ∧ (runSteps w l client).valid = false ∨
        (A client).2 = false ∧ Served filter now (runSteps w l client) := by
    intro client hserved
    have hexact := hA.exact client hserved
    rw [hA.runs client hserved] at hexact
    cases hrc : (A client).2 with
    | true => exact .inl ⟨rfl, hexact.mp hrc⟩
    | false =>
      refine .inr ⟨rfl, hserved.run (Bool.eq_true_of_not_eq_false fun hvalid => ?_)⟩
      rw [hexact.mpr hvalid] at hrc
      cases hrc
  constructor
  · intro client hserved
    dsimp only
    rw [runSteps_append, hA.runs client hserved]
    rcases hcases client hserved with ⟨hrc, hvalid⟩ | ⟨hrc, hserved'⟩
    · rw [if_pos hrc, runSteps_invalid _ hvalid]
    · rw [if_neg (by rw [hrc]; exact Bool.false_ne_true)]
      exact hB.runs _ hserved'
  · intro client hserved
    dsimp only
    rw [hA.runs client hserved]
    rcases hcases client hserved with ⟨hrc, hvalid⟩ | ⟨hrc, hserved'⟩
    · rw [if_pos hrc]
      exact iff_of_true rfl hvalid
    · rw [if_neg (by rw [hrc]; exact Bool.false_ne_true)]
      exact hB.exact _ hserved'

theorem Runs.congr (hB : Runs w filter now B l) (h : ∀ client, Served filter now client → A client = B client) :
    Runs w filter now A l := fun client hserved => by rw [h client hserved, hB client hserved]

theorem Reports.congr (hB : Reports w filter now B l) (h : ∀ client, Served filter now client → A client = B client) :
    Reports w filter now A l :=
  ⟨hB.runs.congr h, fun client hserved => by rw [h client hserved]; exact hB.exact client hserved⟩

/-- The last print of an action that ends with one. -/
theorem Reports.last (l : List Step) (items : List Item) :
    Reports w filter now (fun client => xmlPrint w items (runSteps w l client)) (l ++ [.print items]) :=
  ⟨fun client _ => (runSteps_append w l [.print items] client).symm, fun _ _ => xmlPrint_exact w items _⟩

theorem Refuses.last (l : List Step) (items : List Item) :
    Refuses fun client => xmlPrint w items (runSteps w l client) := by
  intro client hvalid
  dsimp only
  rw [runSteps_invalid l hvalid, xmlPrint_invalid hvalid]

theorem Reports.print (items : List Item) : Reports w filter now (xmlPrint w items) [.print items] :=
  Reports.last [] items

theorem Refuses.print (items : List Item) : Refuses (xmlPrint w items) := fun _ => xmlPrint_invalid

section

variable {V : Type} {func : Datum → V → Action} {steps : Datum × V → List Step}

end

section

variable {α β : Type} {methods : Methods α β} {report : Datum → β → Action} {descend : Bytes → Datum → β → Action}
  {path : Bytes} {key : Datum} {node : α} {lstart lsummary lchildren lbody lfinish : List Step}

/-- An action fails only if the socket does. -/
def Stops (filter : Filter) (now : ℤ) (A : Action) : Prop :=
  ∀ client, Served filter now client → (A client).2 = true → (A client).1.valid = false

end

end

/-- The client as it is when the connection has been accepted. -/
def accepted (now : ℤ) (filter : Filter) : Client := ⟨true, filter, now, [], 0, false⟩

section

variable {w : Pattern} {client : Client}

end

theorem bytes_eq (steps : List Step) : bytes steps = (prints steps).flatten := by
  induction steps with
  | nil => rfl
  | cons step steps ih =>
    rw [bytes, List.flatMap_cons]
    change step.bytes ++ bytes steps = _
    rw [ih]
    cases step <;> rfl

theorem fits_iff (steps : List Step) : (∀ step ∈ steps, step.Fits) ↔
    (∀ text, .sum text ∈ steps → badSum text = false) ∧ ∀ buf ∈ prints steps, buf.length ≤ 4095 := by
  induction steps with
  | nil => exact iff_of_true nofun ⟨nofun, nofun⟩
  | cons step steps ih =>
    rw [List.forall_mem_cons, ih]
    cases step with
    | sum text => simp [prints, Step.Fits, and_assoc]
    | print items => simp [prints, Step.Fits, and_left_comm]

section

variable {filter : Filter} {now : ℤ} {steps steps' : List Step}

theorem items_append (steps steps' : List Step) : items (steps ++ steps') = items steps ++ items steps' :=
  List.flatMap_append

theorem Nested.steps_append (h : Nested (items steps)) (h' : Nested (items steps')) : Nested (items (steps ++ steps')) :=
  items_append steps steps' ▸ h.append h'

theorem Nested.flatMap {V : Type} {ps : List V} {f : V → List Step} (h : ∀ p, Nested (items (f p))) :
    Nested (items (ps.flatMap f)) := by
  induction ps with
  | nil => exact Nested.nil
  | cons p ps ih => exact (h p).steps_append ih

end

end Colama.Ganglia.Server

import Colama.Lib.Runs

namespace Colama.Qemu.Block

variable {κ : Type*}

def EIO : Int := 5

/-- The control block; of each callback the function and its argument, as one value. -/
structure MultiwriteCB (κ : Type*) where
  error : Int := 0
  numRequests : Int := 0
  callbacks : List κ

/-- The control block, which is gone once freed, and the user callbacks made so far. -/
structure Control (κ : Type*) where
  mcb : Option (MultiwriteCB κ)
  called : List (κ × Int) := []

def multiwriteUserCb (mcb : MultiwriteCB κ) : List (κ × Int) :=
  mcb.callbacks.map fun cb => (cb, mcb.error)

/-- `multiwrite_cb`, which must find the control block there. -/
def multiwriteCb (c : Control κ) (ret : Int) : Option (Control κ) := do
  let mcb ← c.mcb
  let mcb := if ret < 0 ∧ mcb.error = 0 then { mcb with error := ret } else mcb
  let mcb := { mcb with numRequests := mcb.numRequests - 1 }
  if mcb.numRequests = 0 then
    some { mcb := none, called := c.called ++ multiwriteUserCb mcb }
  else some { c with mcb := some mcb }

/-- Where `bdrv_aio_multiwrite` is: at the head of its loop, in `bdrv_aio_writev`, or done. -/
inductive Phase
  | submitting (i : Nat)
  | inCall (i : Nat)
  | returned (ret : Int)
  deriving DecidableEq

/-- The function and the driver. `inFlight` are the requests that the driver has yet to complete,
`results` what it has answered so far and `errors` the field of the requests that the function sets. -/
structure System (κ : Type*) where
  phase : Phase
  control : Control κ
  inFlight : List Nat := []
  results : List Int := []
  errors : List Int := []

inductive Event
  | enter
  | complete (j : Nat) (ret : Int)
  | accept
  | reject

/-- The state when the loop is entered; without requests the function is done at once. -/
def System.start (callbacks : List κ) : System κ :=
  if callbacks = [] then { phase := .returned 0, control := { mcb := none } }
  else { phase := .submitting 0, control := { mcb := some { numRequests := 1, callbacks } } }

/-- One step with `numReqs` requests left by the merging. The driver completes requests only when it
runs: in a call, or after the function has returned. It does not complete what it rejects. -/
@[grind] def System.step (numReqs : Nat) (s : System κ) : Event → Option (System κ)
  | .enter =>
    match s.phase with
    | .submitting i =>
      if i < numReqs then do
        let mcb ← s.control.mcb
        let mcb := { mcb with numRequests := mcb.numRequests + 1 }
        some { s with
          phase := .inCall i, control := { s.control with mcb := some mcb }, inFlight := i :: s.inFlight }
      else do
        -- complete the dummy request
        let control ← multiwriteCb s.control 0
        some { s with phase := .returned 0, control }
    | _ => none
  | .complete j ret =>
    match s.phase with
    | .submitting _ => none
    | _ =>
      if j ∈ s.inFlight then do
        let control ← multiwriteCb s.control ret
        some { s with control, inFlight := s.inFlight.erase j, results := s.results ++ [ret] }
      else none
  | .accept =>
    match s.phase with
    | .inCall i => some { s with phase := .submitting (i + 1) }
    | _ => none
  | .reject =>
    match s.phase with
    | .inCall i =>
      if i ∉ s.inFlight then none
      else if i = 0 then do
        let mcb ← s.control.mcb
        some { s with
          phase := .returned (-1), control := { s.control with mcb := none }
          inFlight := s.inFlight.erase i, errors := mcb.callbacks.map fun _ => - EIO }
      else do
        let control ← multiwriteCb s.control (- EIO)
        let control ← multiwriteCb control 0
        some { s with
          phase := .returned 0, control, inFlight := s.inFlight.erase i, results := s.results ++ [- EIO] }
    | _ => none

def firstError (results : List Int) : Int := (results.find? (· < 0)).getD 0

/-- What the callers of `bdrv_aio_multiwrite` rely on. -/
structure Notified (callbacks : List κ) (numReqs : Nat) (s : System κ) : Prop where
  once : s.phase = .returned 0 → s.inFlight = [] →
    s.control.called = callbacks.map fun cb => (cb, firstError s.results)
  notBefore : s.phase ≠ .returned 0 ∨ s.inFlight ≠ [] → s.control.called = []
  ret : ∀ r, s.phase = .returned r → r = 0 ∨ r = -1 ∧ s.inFlight = [] ∧ s.errors = callbacks.map fun _ => - EIO
  alive : (∀ r, s.phase ≠ .returned r) ∨ s.inFlight ≠ [] → s.control.mcb.isSome
  ends : (∀ e, s.step numReqs e = none) → ∃ r, s.phase = .returned r ∧ s.inFlight = []

/-- The counter is that of the requests under way, and of the dummy one until the function returns. -/
structure Counting (callbacks : List κ) (dummy : Nat) (s : System κ) : Prop where
  mcb : s.control.mcb = some
    { error := firstError s.results, numRequests := s.inFlight.length + dummy, callbacks }
  called : s.control.called = []

def PhaseInv (callbacks : List κ) (s : System κ) : Phase → Prop
  | .submitting i => Counting callbacks 1 s ∧ s.inFlight.Nodup ∧ ∀ j ∈ s.inFlight, j < i
  | .inCall i => Counting callbacks 1 s ∧ s.inFlight.Nodup ∧ ∀ j ∈ s.inFlight, j ≤ i
  | .returned r => (r = 0 ∧ (s.inFlight ≠ [] ∧ Counting callbacks 0 s ∨
      s.inFlight = [] ∧ s.control.called = callbacks.map fun cb => (cb, firstError s.results))) ∨
    (r = -1 ∧ s.inFlight = [] ∧ s.control.called = [] ∧ s.errors = callbacks.map fun _ => - EIO)

theorem firstError_concat (results : List Int) (ret : Int) : firstError (results ++ [ret]) =
    if ret < 0 ∧ firstError results = 0 then ret else firstError results := by
  unfold firstError
  rw [List.find?_append]
  cases h : results.find? (· < 0) with
  | none =>
    by_cases hret : ret < 0
    · simp [hret]
    · simp [hret]
  | some e =>
    have hneg : e < 0 := by simpa using List.find?_some h
    simp [hneg.ne]

/-- Completing one of several requests takes it off the counter. -/
theorem multiwriteCb_more {c : Control κ} {callbacks : List κ} {results : List Int} {ret : Int} {n : Int}
    (hmcb : c.mcb = some { error := firstError results, numRequests := n + 1, callbacks }) (hn : n ≠ 0) :
    multiwriteCb c ret = some { c with
      mcb := some { error := firstError (results ++ [ret]), numRequests := n, callbacks } } := by
  rw [firstError_concat]
  simp only [multiwriteCb, hmcb, Option.bind_eq_bind, Option.bind_some]
  split_ifs <;> simp_all

/-- Completing the last request makes the callbacks. -/
theorem multiwriteCb_last {c : Control κ} {callbacks : List κ} {results : List Int} {ret : Int}
    (hmcb : c.mcb = some { error := firstError results, numRequests := 1, callbacks }) :
    multiwriteCb c ret = some {
      mcb := none
      called := c.called ++ callbacks.map fun cb => (cb, firstError (results ++ [ret])) } := by
  rw [firstError_concat]
  simp only [multiwriteCb, hmcb, Option.bind_eq_bind, Option.bind_some, multiwriteUserCb]
  split_ifs <;> simp_all

theorem firstError_concat_zero (results : List Int) : firstError (results ++ [0]) = firstError results := by
  rw [firstError_concat, if_neg]
  exact fun h => absurd h.1 (lt_irrefl 0)

variable {callbacks : List κ} {numReqs : Nat} {s s' : System κ}

def System.Inv (callbacks : List κ) (s : System κ) : Prop := PhaseInv callbacks s s.phase

theorem start_inv (callbacks : List κ) : (System.start callbacks).Inv callbacks := by
  unfold System.start
  split_ifs with h
  · subst h
    exact .inl ⟨rfl, .inr ⟨rfl, rfl⟩⟩
  · exact ⟨⟨rfl, rfl⟩, List.nodup_nil, fun j hj => absurd hj List.not_mem_nil⟩

/-- A completion that leaves others under way, or the dummy request. -/
theorem Counting.complete_more {dummy : Nat} (h : Counting callbacks dummy s) {j : Nat} (hj : j ∈ s.inFlight)
    (ret : Int) (hmore : (s.inFlight.erase j).length + dummy ≠ 0) :
    ∃ control, multiwriteCb s.control ret = some control ∧ Counting callbacks dummy { s with
      control, inFlight := s.inFlight.erase j, results := s.results ++ [ret] } := by
  have hlen : s.inFlight.length = (s.inFlight.erase j).length + 1 := by
    have hpos := List.length_pos_of_mem hj
    rw [List.length_erase_of_mem hj]
    omega
  refine ⟨_, multiwriteCb_more (n := (s.inFlight.erase j).length + dummy) ?_ (by omega), rfl, h.called⟩
  rw [h.mcb, hlen]
  congr 2
  push_cast
  omega

/-- The last completion of all. -/
theorem Counting.complete_last (h : Counting callbacks 0 s) {j : Nat} (hj : j ∈ s.inFlight) (ret : Int)
    (hlast : s.inFlight.erase j = []) : multiwriteCb s.control ret = some {
      mcb := none
      called := callbacks.map fun cb => (cb, firstError (s.results ++ [ret])) } := by
  have hlen : s.inFlight.length = 1 := by
    have hpos := List.length_pos_of_mem hj
    have herase := List.length_erase_of_mem hj
    rw [hlast, List.length_nil] at herase
    omega
  have hmcb : s.control.mcb = some { error := firstError s.results, numRequests := 1, callbacks } := by
    rw [h.mcb, hlen]
    rfl
  rw [multiwriteCb_last hmcb, h.called, List.nil_append]

/-- The dummy request is completed: the callbacks are made now if nothing is under way any more. -/
theorem Counting.complete_dummy (h : Counting callbacks 1 s) :
    ∃ control, multiwriteCb s.control 0 = some control ∧
      PhaseInv callbacks { s with phase := .returned 0, control } (.returned 0) := by
  rcases List.eq_nil_or_concat s.inFlight with hnil | ⟨l, a, hl⟩
  · have hmcb : s.control.mcb = some { error := firstError s.results, numRequests := 1, callbacks } := by
      rw [h.mcb, hnil]
      rfl
    refine ⟨_, multiwriteCb_last hmcb, .inl ⟨rfl, .inr ⟨hnil, ?_⟩⟩⟩
    rw [h.called, List.nil_append, firstError_concat_zero]
  · have hpos : s.inFlight ≠ [] := by simp [hl]
    have hlen : (s.inFlight.length : Int) ≠ 0 := by simpa using hpos
    refine ⟨_, multiwriteCb_more h.mcb hlen, .inl ⟨rfl, .inl ⟨hpos, ?_, h.called⟩⟩⟩
    rw [firstError_concat_zero]
    simp

theorem Counting.complete_failed (h : Counting callbacks 1 s) {j : Nat} (hj : j ∈ s.inFlight) (ret : Int) :
    ∃ control₁ control, multiwriteCb s.control ret = some control₁ ∧ multiwriteCb control₁ 0 = some control ∧
      PhaseInv callbacks { s with
        phase := .returned 0, control, inFlight := s.inFlight.erase j, results := s.results ++ [ret] }
        (.returned 0) := by
  obtain ⟨control₁, hcb, h₁⟩ := h.complete_more hj ret (by omega)
  obtain ⟨control, hcb', h'⟩ := h₁.complete_dummy
  exact ⟨control₁, control, hcb, hcb', h'⟩

theorem enter_inv (h : s.Inv callbacks) (hs : s.step numReqs .enter = some s') : s'.Inv callbacks := by
  unfold System.Inv at h
  cases hphase : s.phase with
  | submitting i =>
    rw [hphase] at h
    obtain ⟨hcount, hnodup, hlt⟩ := h
    simp only [System.step, hphase] at hs
    split_ifs at hs with hi
    · rw [hcount.mcb] at hs
      cases hs
      refine ⟨⟨?_, hcount.called⟩, ?_, ?_⟩
      · simp only [List.length_cons, Nat.cast_add, Nat.cast_one]
      · exact List.nodup_cons.mpr ⟨fun hmem => absurd (hlt i hmem) (lt_irrefl i), hnodup⟩
      · intro j hj
        rcases List.mem_cons.mp hj with rfl | hj
        · exact le_refl _
        · exact (hlt j hj).le
    · obtain ⟨control, hcb, hinv⟩ := hcount.complete_dummy
      rw [hcb] at hs
      cases hs
      exact hinv
  | inCall i => simp [System.step, hphase] at hs
  | returned r => simp [System.step, hphase] at hs

theorem complete_inv (h : s.Inv callbacks) {j : Nat} {ret : Int}
    (hs : s.step numReqs (.complete j ret) = some s') : s'.Inv callbacks := by
  unfold System.Inv at h
  cases hphase : s.phase with
  | submitting i => simp [System.step, hphase] at hs
  | inCall i =>
    rw [hphase] at h
    obtain ⟨hcount, hnodup, hle⟩ := h
    simp only [System.step, hphase] at hs
    split_ifs at hs with hj
    obtain ⟨control, hcb, hcount'⟩ := hcount.complete_more hj ret (by omega)
    rw [hcb] at hs
    cases hs
    exact ⟨⟨hcount'.mcb, hcount'.called⟩, hnodup.erase j, fun k hk => hle k (List.mem_of_mem_erase hk)⟩
  | returned r =>
    rw [hphase] at h
    simp only [System.step, hphase] at hs
    split_ifs at hs with hj
    have hne : s.inFlight ≠ [] := List.ne_nil_of_mem hj
    obtain ⟨rfl, ⟨-, hcount⟩ | ⟨hnil, -⟩⟩ | ⟨-, hnil, -⟩ := h
    · by_cases hlast : s.inFlight.erase j = []
      · rw [hcount.complete_last hj ret hlast] at hs
        cases hs
        exact .inl ⟨rfl, .inr ⟨hlast, rfl⟩⟩
      · have hpos : (s.inFlight.erase j).length + 0 ≠ 0 := by simpa using hlast
        obtain ⟨control, hcb, hcount'⟩ := hcount.complete_more hj ret hpos
        rw [hcb] at hs
        cases hs
        exact .inl ⟨rfl, .inl ⟨hlast, ⟨hcount'.mcb, hcount'.called⟩⟩⟩
    · exact absurd hnil hne
    · exact absurd hnil hne

theorem accept_inv (h : s.Inv callbacks) (hs : s.step numReqs .accept = some s') : s'.Inv callbacks := by
  unfold System.Inv at h
  cases hphase : s.phase with
  | submitting i => simp [System.step, hphase] at hs
  | inCall i =>
    rw [hphase] at h
    obtain ⟨hcount, hnodup, hle⟩ := h
    simp only [System.step, hphase] at hs
    cases hs
    exact ⟨⟨hcount.mcb, hcount.called⟩, hnodup, fun j hj => Nat.lt_succ_of_le (hle j hj)⟩
  | returned r => simp [System.step, hphase] at hs

theorem reject_inv (h : s.Inv callbacks) (hs : s.step numReqs .reject = some s') : s'.Inv callbacks := by
  unfold System.Inv at h
  cases hphase : s.phase with
  | submitting i => simp [System.step, hphase] at hs
  | inCall i =>
    rw [hphase] at h
    obtain ⟨hcount, hnodup, hle⟩ := h
    simp only [System.step, hphase] at hs
    split_ifs at hs with hi h0
    · -- the only request so far: nothing else is under way
      subst h0
      have hnil : s.inFlight.erase 0 = [] := by
        rw [List.eq_nil_iff_forall_not_mem]
        intro j hj
        have hj0 : j = 0 := Nat.le_zero.mp (hle j (List.mem_of_mem_erase hj))
        rw [hj0] at hj
        exact hnodup.not_mem_erase hj
      rw [hcount.mcb] at hs
      cases hs
      exact .inr ⟨rfl, hnil, hcount.called, rfl⟩
    · obtain ⟨control₁, control, hcb, hcb', hinv⟩ := hcount.complete_failed hi (- EIO)
      rw [hcb] at hs
      simp only [Option.bind_eq_bind, Option.bind_some, hcb'] at hs
      cases hs
      exact hinv
  | returned r => simp [System.step, hphase] at hs

theorem step_inv {e : Event} (h : s.Inv callbacks) (hs : s.step numReqs e = some s') : s'.Inv callbacks := by
  cases e with
  | enter => exact enter_inv h hs
  | complete j ret => exact complete_inv h hs
  | accept => exact accept_inv h hs
  | reject => exact reject_inv h hs

theorem Counting.alive {dummy : Nat} (h : Counting callbacks dummy s) : s.control.mcb.isSome := by
  rw [h.mcb]
  rfl

/-- While the function runs it can go on, and what is under way can be completed. -/
theorem System.Inv.ends (h : s.Inv callbacks) (hstuck : ∀ e, s.step numReqs e = none) :
    ∃ r, s.phase = .returned r ∧ s.inFlight = [] := by
  unfold System.Inv at h
  cases hphase : s.phase with
  | submitting i =>
    rw [hphase] at h
    have henter := hstuck .enter
    simp only [System.step, hphase] at henter
    split_ifs at henter
    · simp [h.1.mcb] at henter
    · obtain ⟨control, hcb, -⟩ := h.1.complete_dummy
      simp [hcb] at henter
  | inCall i =>
    have haccept := hstuck .accept
    simp [System.step, hphase] at haccept
  | returned r =>
    refine ⟨r, rfl, ?_⟩
    by_contra hne
    obtain ⟨j, hj⟩ := List.exists_mem_of_ne_nil _ hne
    rw [hphase] at h
    obtain ⟨rfl, ⟨-, hcount⟩ | ⟨hnil, -⟩⟩ | ⟨-, hnil, -⟩ := h
    · have hcomplete := hstuck (.complete j 0)
      simp only [System.step, hphase, if_pos hj, multiwriteCb, hcount.mcb, Option.bind_eq_bind,
        Option.bind_some] at hcomplete
      split_ifs at hcomplete <;> simp at hcomplete
    · exact hne hnil
    · exact hne hnil

theorem System.Inv.notified (h : s.Inv callbacks) : Notified callbacks numReqs s where
  once hphase hnil := by
    rw [System.Inv, hphase] at h
    obtain ⟨-, ⟨hne, -⟩ | ⟨-, hcalled⟩⟩ | ⟨habs, -⟩ := h
    · exact absurd hnil hne
    · exact hcalled
    · exact absurd habs (by decide)
  notBefore hnot := by
    unfold System.Inv at h
    cases hphase : s.phase with
    | submitting i =>
      rw [hphase] at h
      exact h.1.called
    | inCall i =>
      rw [hphase] at h
      exact h.1.called
    | returned r =>
      rw [hphase] at h hnot
      obtain ⟨rfl, ⟨-, hcount⟩ | ⟨hnil, -⟩⟩ | ⟨-, -, hcalled, -⟩ := h
      · exact hcount.called
      · exact absurd hnil (hnot.resolve_left fun hne => hne rfl)
      · exact hcalled
  ret r hphase := by
    rw [System.Inv, hphase] at h
    obtain ⟨hr, -⟩ | ⟨hr, hnil, -, herrors⟩ := h
    · exact .inl hr
    · exact .inr ⟨hr, hnil, herrors⟩
  alive hor := by
    unfold System.Inv at h
    cases hphase : s.phase with
    | submitting i =>
      rw [hphase] at h
      exact h.1.alive
    | inCall i =>
      rw [hphase] at h
      exact h.1.alive
    | returned r =>
      rw [hphase] at h hor
      have hne : s.inFlight ≠ [] := hor.resolve_left fun hall => hall r rfl
      obtain ⟨-, ⟨-, hcount⟩ | ⟨hnil, -⟩⟩ | ⟨-, hnil, -⟩ := h
      · exact hcount.alive
      · exact absurd hnil hne
      · exact absurd hnil hne
  ends := h.ends

/-- In every run, whatever the driver answers and when, the callbacks are made once, when everything
submitted is complete, and never if the function fails. -/
theorem multiwrite_notified (callbacks : List κ) (numReqs : Nat)
    (h : Lib.Reachable (fun s e s' => System.step numReqs s e = some s') (fun _ _ => True)
      (System.start callbacks) s) : Notified callbacks numReqs s := by
  apply System.Inv.notified
  apply h.invariant (System.Inv callbacks) (start_inv callbacks)
  intro s e s' hinv _ hs
  exact step_inv hinv hs

/-- The second of two requests cannot be submitted, and the first completes after the function returned. -/
theorem multiwrite_notified_rejected : ∃ s : System Nat, s.control.called = [(10, -5), (11, -5)] ∧
    Notified [10, 11] 2 s := by
  refine ⟨_, ?_, multiwrite_notified (s := _) [10, 11] 2 (((((Lib.Reachable.init.step (a := .enter) trivial rfl).step
    (a := .accept) trivial rfl).step (a := .enter) trivial rfl).step (a := .reject) trivial rfl).step
    (a := .complete 0 0) trivial rfl)⟩
  rfl

end Colama.Qemu.Block

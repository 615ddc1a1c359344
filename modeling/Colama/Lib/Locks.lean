import Mathlib.Data.Finset.Basic

namespace Colama.Lib.Locks

variable {M : Type*} [DecidableEq M]

/-- What a thread does with its mutexes: `use` is an access to what a mutex guards. -/
inductive Event (M : Type*)
  | lock (m : M)
  | unlock (m : M)
  | use (m : M)

/-- The mutexes that the thread holds after an event. A mutex is not locked twice, and unlocked and used only
while it is held. -/
@[grind] def Event.run (held : Finset M) : Event M → Option (Finset M)
  | .lock m => if m ∈ held then none else some (insert m held)
  | .unlock m => if m ∈ held then some (held.erase m) else none
  | .use m => if m ∈ held then some held else none

def run (held : Finset M) (trace : List (Event M)) : Option (Finset M) := trace.foldlM Event.run held

/-- Every mutex is locked and unlocked in turn, used only while it is held, and free at the end. -/
def Disciplined (trace : List (Event M)) : Prop := run ∅ trace = some ∅

variable {held : Finset M} {m : M} {t u : List (Event M)}

@[simp] theorem run_nil : run held ([] : List (Event M)) = some held := rfl

theorem run_append : run held (t ++ u) = (run held t).bind fun h => run h u := by
  simp [run, List.foldlM_append]

theorem run_lock (h : m ∉ held) : run held (.lock m :: t) = run (insert m held) t := by
  simp [run, Event.run, h]

theorem run_lock_held (h : m ∈ held) : run held (.lock m :: t) = none := by
  simp [run, Event.run, h]

theorem run_unlock (h : m ∈ held) : run held (.unlock m :: t) = run (held.erase m) t := by
  simp [run, Event.run, h]

theorem run_unlock_free (h : m ∉ held) : run held (.unlock m :: t) = none := by
  simp [run, Event.run, h]

theorem run_use (h : m ∈ held) : run held (.use m :: t) = run held t := by
  simp [run, Event.run, h]

theorem run_use_free (h : m ∉ held) : run held (.use m :: t) = none := by
  simp [run, Event.run, h]

end Colama.Lib.Locks

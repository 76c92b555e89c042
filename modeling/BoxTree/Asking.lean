import BoxTree.Fault
/-!
# Asking whether to stop

Long work asks now and then whether it should stop. Asking has an effect: it is counted, it
may raise a flag, and the check behind it may fail. `Asking` is the type of work that asks;
what is asked, and what is remembered of it, is the state.
-/

namespace BoxTree

/-- Work over a state of type `σ` that may end in a failure. The state is kept either way. -/
abbrev Asking (σ : Type) := ExceptT Failure (StateM σ)

namespace Asking

variable {σ α β : Type}

/-- A result of a step that may fault. -/
def ofFault (r : Except Fault α) : Asking σ α :=
  match r with
  | .ok a => pure a
  | .error f => throw (.fault f)

/-- A result of a step that may end in an error. -/
def ofError (r : Except BuildError α) : Asking σ α :=
  match r with
  | .ok a => pure a
  | .error e => throw (.error e)

/-- The result of work and the state it leaves. -/
def runFrom (work : Asking σ α) (s : σ) : Except Failure α × σ := (ExceptT.run work).run s

/-- Two pieces of work that are handed out together. A fault of the first does not take the
second back: it has its turn, and leaves its mark on the state, before the fault is reported.
An error of the first calls the second off. -/
def both (first : Asking σ α) (second : Asking σ β) : Asking σ (α × β) := fun s =>
  match first.runFrom s with
  | (.ok a, s) => (second.runFrom s).map (Except.map fun b => (a, b)) id
  | (.error (.fault f), s) => (.error (.fault f), (second.runFrom s).2)
  | (.error (.error e), s) => (.error (.error e), s)

/-- Without a failure of the first piece, the second goes on from the state it left. -/
theorem both_of_ok {first : Asking σ α} {second : Asking σ β} {s t : σ} {a : α}
    (h : first.runFrom s = (.ok a, t)) :
    (both first second).runFrom s =
      (second.runFrom t).map (Except.map fun b => (a, b)) id := by
  change both first second s = _
  rw [both, h]

/-- A fault of the first piece is the result of both, whatever the second comes to. -/
theorem both_of_fault {first : Asking σ α} {second : Asking σ β} {s t : σ} {f : Fault}
    (h : first.runFrom s = (.error (.fault f), t)) :
    (both first second).runFrom s = (.error (.fault f), (second.runFrom t).2) := by
  change both first second s = _
  rw [both, h]

end Asking

end BoxTree

import BoxTree.Asking
/-!
# Cancellation

A build asks a check whether to stop. The check is a function of the number of questions
asked before; its answer can also be a failure. A build remembers that it has been told to
stop, and does not ask again.
-/

namespace BoxTree

/-- A flag that can be raised from outside. -/
structure CancelFlag where
  raised : Bool := false
  deriving DecidableEq

namespace CancelFlag

/-- The raised flag. -/
def cancel (_ : CancelFlag) : CancelFlag := ⟨true⟩

/-- The lowered flag. -/
def reset (_ : CancelFlag) : CancelFlag := ⟨false⟩

end CancelFlag

/-- What a check answers. -/
inductive Answer where
  | proceed
  | stop
  /-- The check itself fails, with a text if it leaves one. -/
  | failed (text : Option String)
  deriving DecidableEq, Repr

/-- A cancellation check: its answer to question number `n`, counted from zero. -/
abbrev Check := Nat → Answer

namespace Check

/-- The check that never stops anything. -/
def never : Check := fun _ => .proceed

/-- The check that looks at a flag. -/
def ofFlag (f : CancelFlag) : Check := fun _ => if f.raised then .stop else .proceed

/-- The answer as a result. -/
def ask (c : Check) (n : Nat) : Except Fault Bool :=
  match c n with
  | .proceed => .ok false
  | .stop => .ok true
  | .failed text => .error (.check text)

end Check

/-- What a build remembers of its questions: how many it has asked, and whether it is to
stop. -/
structure Watch where
  polls : Nat := 0
  aborted : Bool := false
  deriving DecidableEq

namespace Watch

/-- Asks whether to stop. A build that is to stop does not ask its check again. -/
def shouldStop (check : Check) : Asking Watch Bool := fun w =>
  if w.aborted then (.ok true, w)
  else
    match check.ask w.polls with
    | .ok stop => (.ok stop, ⟨w.polls + 1, stop⟩)
    | .error f => (.error (.fault f), ⟨w.polls + 1, false⟩)

end Watch

end BoxTree

/-!
# Faults and build errors

Two ways for work to fail. A `Fault` is a broken precondition: an index outside its list, a
failed assertion, a full counter, or a cancellation check that itself failed. It ends the work
at hand. A `BuildError` is what a build reports to its caller.
-/

namespace BoxTree

/-- The greatest 32-bit count, the limit of object, node and chunk numbers. -/
def limit32 : Nat := 0xFFFFFFFF

/-- The greatest 64-bit count, the limit of sizes and counters. -/
def limit64 : Nat := 0xFFFFFFFFFFFFFFFF

/-- The greatest allocation, in bytes. -/
def maxAllocation : Nat := 0x7FFFFFFFFFFFFFFF

/-- A broken precondition. -/
inductive Fault where
  /-- No element has this index. -/
  | indexOutOfRange (index size : Nat)
  /-- A range is reversed or ends behind the buffer. -/
  | rangeOutOfRange (first last size : Nat)
  /-- An assertion does not hold. -/
  | assertion (claim : String)
  /-- A count is beyond the width of its counter. -/
  | overflow (operation : String)
  /-- A cancellation check failed; the text is what it left, if it left one. -/
  | check (text : Option String)
  deriving DecidableEq, Repr

namespace Fault

/-- What is reported of a fault inside a build task. -/
def message : Fault → String
  | indexOutOfRange i n => s!"index out of bounds: the len is {n} but the index is {i}"
  | rangeOutOfRange a b n => s!"Range was out of bounds, range: {a}..{b}, len: {n}"
  | assertion claim => claim
  | overflow operation => s!"attempt to {operation} with overflow"
  | check text => text.getD "unknown panic"

end Fault

/-- The sum of two counts within a limit. -/
def addWithin (limit a b : Nat) : Except Fault Nat :=
  if a + b ≤ limit then .ok (a + b) else .error (.overflow "add")

/-- The difference of two counts, the second not above the first. -/
def subWithin (a b : Nat) : Except Fault Nat :=
  if b ≤ a then .ok (a - b) else .error (.overflow "subtract")

/-- The product of two counts within a limit. -/
def mulWithin (limit a b : Nat) : Except Fault Nat :=
  if a * b ≤ limit then .ok (a * b) else .error (.overflow "multiply")

/-- Why a build has no result. Cancellation is an outcome and no error. -/
inductive BuildError where
  /-- A build parameter is out of range. -/
  | invalidSettings (detail : String)
  /-- More objects or nodes than their numbers can tell apart. -/
  | tooManyObjects (count : Nat)
  /-- Memory for a number of elements was not to be had. -/
  | outOfMemory (what : String) (count : Nat)
  /-- The nested threads could not be started. -/
  | nestedPool (detail : String)
  /-- A task ended in a fault. -/
  | taskPanicked (detail : String)
  /-- The chunks of a finished build do not fit together. -/
  | internal (detail : String)
  deriving DecidableEq, Repr

namespace BuildError

/-- The text of an error. -/
def message : BuildError → String
  | invalidSettings detail => s!"invalid build settings: {detail}"
  | tooManyObjects count =>
    s!"cannot build a BVH over {count} objects, at most {limit32} are supported"
  | outOfMemory what count => s!"could not allocate {what} ({count} elements)"
  | nestedPool detail => s!"could not create nested thread pool: {detail}"
  | taskPanicked detail => s!"a build task panicked: {detail}"
  | internal detail => s!"internal error while merging result chunks: {detail}"

end BuildError

/-- What ends a task before its time: a fault of its own, or an error it reports. -/
inductive Failure where
  | fault (f : Fault)
  | error (e : BuildError)
  deriving DecidableEq, Repr

namespace Failure

/-- The error a failed task leaves behind. -/
def toError : Failure → BuildError
  | fault f => .taskPanicked f.message
  | error e => e

end Failure

/-- Checks that room for a number of elements of a size can be asked for. -/
def reserve (what : String) (elementSize count : Nat) : Except BuildError Unit :=
  if count * elementSize ≤ maxAllocation then .ok () else .error (.outOfMemory what count)

end BoxTree

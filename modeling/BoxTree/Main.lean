import BoxTree.Command.Report
import BoxTree.Json.Writer
/-!
# The program

Reads the command line, builds a tree and prints the report.
-/

namespace BoxTree

namespace Command

/-- The number of processors of this machine, one where it cannot be found out. -/
def processors : IO Nat := do
  try
    let text ← IO.FS.readFile "/proc/cpuinfo"
    pure (max 1 ((text.splitOn "\n").countP fun line => line.startsWith "processor"))
  catch _ => pure 1

/-- Prints a message about what went wrong. -/
def complain (message : String) : IO UInt32 := do
  IO.eprintln s!"error: {message}"
  pure 1

/-- Builds a tree and prints the report on it, with the time from before the build to after
it. -/
def report (o : Options) : IO UInt32 := do
  let start ← IO.monoNanosNow
  match o.run with
  | .error e => complain e.message
  | .ok r =>
    let nanoseconds := (← IO.monoNanosNow) - start
    if o.json then
      IO.println (r.toJson (nanoseconds.toUInt64.toFloat / 1000000)).pretty
    else
      for line in r.lines (nanoseconds / 1000000) do
        IO.println line
    pure 0

/-- Prints what the arguments ask for. -/
def start (args : List String) : IO UInt32 := do
  match Request.ofArguments args with
  | .error m => complain m.message
  | .ok .version =>
    IO.println versionLine
    pure 0
  | .ok .help =>
    for line in helpLines do
      IO.println line
    pure 0
  | .ok (.run g) =>
    match Options.ofGiven (← processors) g with
    | .error u => complain u.message
    | .ok o => report o

end Command

end BoxTree

/-- The program: builds a tree over the scene that the arguments ask for. -/
def main (args : List String) : IO UInt32 := BoxTree.Command.start args

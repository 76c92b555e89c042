/-!
# Command line arguments

The grammar of the command line. An argument that starts with a dash names an option, a long
one by its name and a short one by its letter, and may carry a value of its own; a value may
also follow as the next argument, unless it starts with a dash and goes on after it. Reading
stops at the first argument that has no place here, and at a request for the version or for
help; that every option has a value, that none occurs twice and that a value is among the
choices of its option is checked when all arguments are read.
-/

namespace BoxTree

namespace Command

/-- An option that takes a value. -/
inductive Parameter where
  | count
  | threads
  | strategy
  | distribution
  | seed
  | leafThreshold
  | maxLeaf
  | intersectionCost
  deriving DecidableEq, Repr

namespace Parameter

/-- Every option that takes a value. -/
def all : List Parameter :=
  [count, threads, strategy, distribution, seed, leafThreshold, maxLeaf, intersectionCost]

/-- The long name of an option. -/
def name : Parameter → String
  | count => "count"
  | threads => "threads"
  | strategy => "strategy"
  | distribution => "distribution"
  | seed => "seed"
  | leafThreshold => "leaf-threshold"
  | maxLeaf => "max-leaf"
  | intersectionCost => "intersection-cost"

/-- The letter of an option, for those that have one. -/
def letter? : Parameter → Option Char
  | count => some 'n'
  | threads => some 't'
  | strategy => some 's'
  | distribution => some 'd'
  | _ => none

/-- The values an option can have, where only some are allowed. -/
def choices? : Parameter → Option (List String)
  | strategy => some ["exact", "binning", "auto"]
  | distribution => some ["uniform", "clustered", "coincident"]
  | _ => none

end Parameter

/-- What an option can be: one that takes a value, or a switch. -/
inductive OptionKind where
  | takes (p : Parameter)
  | json
  | version
  | help
  deriving DecidableEq, Repr

namespace OptionKind

/-- The option of a long name. -/
def ofName? (name : String) : Option OptionKind :=
  match Parameter.all.find? fun p => p.name = name with
  | some p => some (takes p)
  | none =>
    if name = "json" then some json
    else if name = "version" then some version
    else if name = "help" then some help
    else none

/-- The option of a letter. -/
def ofLetter? (letter : Char) : Option OptionKind :=
  match Parameter.all.find? fun p => p.letter? = some letter with
  | some p => some (takes p)
  | none =>
    if letter = 'V' then some version
    else if letter = 'h' then some help
    else none

/-- The long names tell the options apart. -/
theorem ofName?_name (p : Parameter) : ofName? p.name = some (takes p) := by
  cases p <;> decide

/-- The letters tell the options apart that have one. -/
theorem ofLetter?_letter {p : Parameter} {c : Char} (h : p.letter? = some c) :
    ofLetter? c = some (takes p) := by
  cases p <;> simp only [Parameter.letter?, Option.some.injEq, reduceCtorEq] at h <;>
    subst h <;> decide

end OptionKind

/-- Why the arguments are refused. -/
inductive Misuse where
  /-- An argument that is no option and nobody's value. -/
  | unexpected (argument : String)
  | missingValue (p : Parameter)
  | repeated (name : String)
  | notAChoice (p : Parameter) (value : String)
  deriving DecidableEq, Repr

namespace Misuse

/-- The text of a refusal. -/
def message : Misuse → String
  | unexpected argument => s!"unexpected argument '{argument}'"
  | missingValue p => s!"--{p.name} needs a value"
  | repeated name => s!"--{name} was given more than once"
  | notAChoice p value =>
    let allowed := ", ".intercalate (p.choices?.getD [])
    s!"'{value}' is not a value of --{p.name}, which can be {allowed}"

end Misuse

/-- The options that occur among the arguments, in their order. -/
structure Given where
  /-- Options that take a value, with the value if one was found. -/
  values : List (Parameter × Option String) := []
  /-- The number of times JSON output was asked for. -/
  json : Nat := 0
  deriving DecidableEq, Repr

namespace Given

/-- One more option with its value, if it has one already. -/
def addOption (g : Given) (p : Parameter) (value : Option String) : Given :=
  { g with values := g.values ++ [(p, value)] }

/-- The value that the last option was waiting for. -/
def supply (g : Given) (value : String) : Given :=
  match g.values.getLast? with
  | some (p, _) => { g with values := g.values.dropLast ++ [(p, some value)] }
  | none => g

/-- The value of an option. -/
def value? (g : Given) (p : Parameter) : Option String :=
  (g.values.find? fun v => v.1 = p).bind Prod.snd

/-- What is wrong with one of the options, the others being known. -/
def problemOf? (g : Given) (p : Parameter) : Option Misuse :=
  match g.values.filter fun v => v.1 = p with
  | [] => none
  | [(_, none)] => some (.missingValue p)
  | [(_, some value)] =>
    match p.choices? with
    | some choices => if choices.contains value then none else some (.notAChoice p value)
    | none => none
  | _ => some (.repeated p.name)

/-- What is wrong with the options together. -/
def problem? (g : Given) : Option Misuse :=
  match Parameter.all.findSome? g.problemOf? with
  | some m => some m
  | none => if 1 < g.json then some (.repeated "json") else none

end Given

/-- What the arguments ask for. -/
inductive Request where
  | run (g : Given)
  | version
  | help
  deriving DecidableEq, Repr

/-- What one argument is, on its own. -/
inductive Argument where
  /-- Two dashes: no options follow. -/
  | separator
  | option (o : OptionKind) (value : Option String)
  /-- An argument with a dash in front that is no option. -/
  | unknown
  /-- An argument that can only be a value. -/
  | plain
  deriving DecidableEq, Repr

namespace Argument

/-- The value attached to an option: equal signs in front of it are dropped. -/
def attached (cs : List Char) : String := String.ofList (cs.dropWhile (· = '='))

/-- A long option: a name, up to an equal sign if there is one, and then its value. A switch
has no use for a value. -/
def long (cs : List Char) : Argument :=
  let name := cs.takeWhile (· ≠ '=')
  let value := if name.length = cs.length then none else some (attached (cs.drop (name.length + 1)))
  match OptionKind.ofName? (String.ofList name) with
  | some o => option o value
  | none => unknown

/-- A short option: a letter, and what follows it as its value. -/
def short : List Char → Argument
  | [] => unknown
  | c :: rest =>
    match OptionKind.ofLetter? c with
    | some o => option o (if rest.isEmpty then none else some (attached rest))
    | none => unknown

/-- Reads one argument. A single dash is a value. -/
def ofText (text : String) : Argument :=
  match text.toList with
  | ['-', '-'] => separator
  | '-' :: '-' :: cs => long (cs.dropWhile (· = '-'))
  | ['-'] => plain
  | '-' :: cs => short cs
  | _ => plain

end Argument

/-- Reads the arguments that follow the options in `g`; `awaiting` tells whether the last of
these still waits for its value. -/
def Given.scan : (awaiting : Bool) → Given → List String → Except Misuse Request
  | _, g, [] => .ok (.run g)
  | awaiting, g, text :: rest =>
    match Argument.ofText text with
    | .separator =>
      match rest with
      | [] => .ok (.run g)
      | next :: _ => .error (.unexpected next)
    | .unknown => .error (.unexpected text)
    | .plain => if awaiting then scan false (g.supply text) rest else .error (.unexpected text)
    | .option .version _ => .ok .version
    | .option .help _ => .ok .help
    | .option .json _ => scan false { g with json := g.json + 1 } rest
    | .option (.takes p) value => scan value.isNone (g.addOption p value) rest

/-- Reads all arguments. -/
def Request.ofArguments (args : List String) : Except Misuse Request := do
  let request ← Given.scan false {} args
  match request with
  | .run g =>
    match g.problem? with
    | some m => throw m
    | none => pure request
  | _ => pure request

/-- The name and the version of the program. -/
def versionLine : String := "sah-bvh 0.1.0"

/-- What a parameter is for. -/
def Parameter.purpose : Parameter → String
  | count => "number of boxes to generate"
  | threads => "worker threads, 0 runs every task inline"
  | strategy => "split search strategy"
  | distribution => "box distribution"
  | seed => "random seed"
  | leafThreshold => "ranges of at most this many objects become leaves"
  | maxLeaf => "maximum number of objects per leaf"
  | intersectionCost => "cost of an object intersection relative to a traversal step"

/-- The line of an option in the help text. -/
def Parameter.helpLine (p : Parameter) : String :=
  let letter :=
    match p.letter? with
    | some c => s!"-{c}, "
    | none => "    "
  let choices :=
    match p.choices? with
    | some cs =>
      let cs := ", ".intercalate cs
      s!" [{cs}]"
    | none => ""
  s!"  {letter}--{p.name} <{p.name}>  {p.purpose}{choices}"

/-- The help text. -/
def helpLines : List String :=
  [versionLine, "Builds a SAH BVH over synthetic boxes and reports statistics", ""] ++
    Parameter.all.map Parameter.helpLine ++
    ["      --json  print statistics as JSON",
     "  -h, --help  print this text",
     "  -V, --version  print the version"]

end Command

end BoxTree

import BoxTree.Build.Machine
import BoxTree.Tree
/-!
# Builders

A builder keeps settings that were checked, and after a build what the build found out about
its tree. Building checks the input, prepares the object arrays, runs the machine and lays the
chunks together.
-/

namespace BoxTree

/-- A builder, with the reports of its last build. -/
structure Builder where
  settings : Settings
  stats : Statistics := {}
  rootBounds : Box := .empty

/-- How a build ends that does not fail. -/
inductive Outcome where
  | complete (tree : Tree)
  | cancelled

/-- What a build leaves: the builder with its reports, how the build ended, the number of
questions it asked its check, and the queue it used. A fault here is one of the building
thread itself. -/
structure BuildResult where
  builder : Builder
  outcome : Except Failure Outcome
  polls : Nat
  queue : JobQueue BuildJob

namespace Builder

/-- A builder for settings that meet their conditions. -/
def ofSettings (s : Settings) : Except BuildError Builder :=
  s.validate.map fun _ => { settings := s }

/-- The greatest depth of a leaf in the last tree. -/
def maxLeafDepth (b : Builder) : Nat := b.stats.maxLeafDepth

/-- The object buffers at the start of a build. -/
def prepare (search : Search) (nans : Item → Axis → Scalar.NaN) (second : Bool)
    (boxes : List Box) : Except Fault Buffers :=
  let items := Item.ofBoxes boxes
  match search with
  | .exact => Buffers.ofArrays (Axis.all.map fun a => Item.sortAlong a items nans) second
  | .binning => Buffers.ofArrays [items] second

/-- The plan of a build over some boxes. -/
def plan (s : Settings) (platform : Platform) (boxes : List Box) : Except Fault Plan := do
  let search := s.search boxes.length
  let pieces ← mulWithin limit64 (max s.nestedThreads 1) 4
  pure
    { settings := s, search, nested := s.wantsNested search boxes.length, pieces, platform,
      extent := platform.extent boxes }

/-- Whether a build needs the second buffer. -/
def needsBack (p : Plan) (count : Nat) : Bool :=
  match p.search with
  | .exact => true
  | .binning => p.nested && p.settings.parallelPartition ≤ count

/-- The machine at the start of a build: the whole input is the region of the first job. -/
def machine (policy : Policy) (queue : JobQueue BuildJob) (buffers : Buffers) (extent : Extent)
    (count : Nat) : Machine :=
  let root : Region := ⟨0, count, extent, 0, .front⟩
  { buffers, watch := ⟨1, false⟩, queue := queue.submit policy ⟨0, root⟩, nextChunk := 1 }

/-- The plan of a build and its machine with the first job submitted. -/
def start (s : Settings) (boxes : List Box) (policy : Policy) (queue : JobQueue BuildJob) :
    Except Fault (Plan × Machine) := do
  let count := boxes.length
  let p ← plan s policy.platform boxes
  let buffers ← prepare p.search p.platform.nans (needsBack p count) boxes
  pure (p, machine policy queue buffers p.extent count)

/-- Takes in a report: its counters are added to those so far, and its chunk is put in the slot of
its number. -/
def receive (taken : Statistics × Array (Option Chunk)) (r : Report) :
    Except Failure (Statistics × Array (Option Chunk)) := do
  let (sum, slots) := taken
  let sum ← Effect.counted (sum.accumulate r.stats)
  if r.chunk.id < slots.size then pure (sum, slots.setIfInBounds r.chunk.id (some r.chunk))
  else throw (.error (MergeFault.unexpected r.chunk.id).toError)

/-- Takes in the reports of a number of tasks as they came, the last one first. -/
def receiveAll (count : Nat) (reports : List Report) :
    Except Failure (Statistics × Array (Option Chunk)) :=
  reports.foldr (fun r taken => do receive (← taken) r) (.ok ({}, Array.replicate count none))

/-- The chunks in the order of their numbers, each of which has to be there. -/
def collect (slots : Array (Option Chunk)) : Except BuildError (List Chunk) :=
  slots.toList.zipIdx.mapM fun (slot, id) =>
    match slot with
    | some chunk => .ok chunk
    | none => .error (MergeFault.unreported id).toError

/-- The tree and the counters of a machine that has finished. -/
def assemble (m : Machine) (count : Nat) : Except Failure (Tree × Statistics) := do
  let (stats, slots) ← receiveAll m.nextChunk m.reports
  let chunks ← Effect.ofError (collect slots)
  let nodes ← Chunk.merge chunks
  let ordered ← Effect.ofFault (m.buffers.view .front 0 0 count)
  pure (⟨nodes.toArray, ordered.map Item.index⟩, { stats with chunks := chunks.length })

/-- The builder before a build: the reports of the last one are forgotten. -/
def cleared (b : Builder) : Builder := { settings := b.settings }

/-- What a build over no boxes leaves: a single empty leaf. -/
def buildEmpty (b : Builder) (queue : JobQueue BuildJob) : BuildResult :=
  let stats := (({} : Statistics).recordLeaf .underThreshold 0 0).1
  ⟨{ b with stats := { stats with chunks := 1 } }, .ok (.complete .empty), 1, queue⟩

/-- What a build over a number of objects leaves whose machine has finished. The reports are set
only when the tree is complete; the bounds of its root are those the build started with. -/
def conclude (b : Builder) (p : Plan) (count : Nat) (m : Machine) : BuildResult :=
  match m.failure with
  | some e => ⟨b, .error (.error e), m.watch.polls, m.queue⟩
  | none =>
    if m.watch.aborted then ⟨b, .ok .cancelled, m.watch.polls, m.queue⟩
    else
      match assemble m count with
      | .error f => ⟨b, .error f, m.watch.polls, m.queue⟩
      | .ok (tree, stats) =>
        let b := { b with stats := stats, rootBounds := p.extent.bounds }
        ⟨b, .ok (.complete tree), m.watch.polls, m.queue⟩

/-- Builds a tree over a list of boxes, asking once before anything is prepared whether to
stop. -/
def build (b : Builder) (boxes : List Box) (policy : Policy) (check : Check)
    (queue : JobQueue BuildJob) : BuildResult :=
  let b := b.cleared
  if limit32 < boxes.length then
    ⟨b, .error (.error (.tooManyObjects boxes.length)), 0, queue⟩
  else
    match check.ask 0 with
    | .error f => ⟨b, .error (.fault f), 1, queue⟩
    | .ok true => ⟨b, .ok .cancelled, 1, queue⟩
    | .ok false =>
      if boxes.isEmpty then b.buildEmpty queue
      else
        match start b.settings boxes policy queue with
        | .error f => ⟨b, .error (.fault f), 1, queue⟩
        | .ok (p, m) =>
          b.conclude p boxes.length (m.run p policy check (Machine.enoughSteps boxes.length))

end Builder

namespace Tree

/-- Builds a tree with a fresh builder, oldest jobs first and without a check. -/
def construct (boxes : List Box) (s : Settings) : Except Failure Tree := do
  let builder ← Effect.ofError (Builder.ofSettings s)
  match (builder.build boxes .fifo .never {}).outcome with
  | .error f => throw f
  | .ok (.complete tree) => pure tree
  | .ok .cancelled => throw (.error (.internal "build without cancellation check was cancelled"))

end Tree

end BoxTree

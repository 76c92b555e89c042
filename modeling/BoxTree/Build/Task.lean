import BoxTree.Build.Region
import BoxTree.Chunk
import BoxTree.Statistics
/-!
# Build tasks

A task builds one subtree into a chunk of its own. What is left of it at any time is a list of
regions, each with the slot its root goes to: a region is either to be split by its best split
or, once that has failed, to be halved by position until its parts fit in leaves. Working off
the first of them takes two steps. The first decides, asking on the way whether to stop, and
changes nothing but the search table; the second carries the decision out.
-/

namespace BoxTree

/-- A job of a build: a region whose subtree goes to a chunk of its own. -/
structure BuildJob where
  chunk : Nat
  region : Region
  deriving DecidableEq

/-- A region that a task has still to build, with the slot of its root. -/
inductive Work where
  /-- Split the region by its best split. -/
  | split (slot : Nat) (region : Region)
  /-- Halve the region by position. -/
  | halve (slot : Nat) (region : Region)
  deriving DecidableEq

namespace Work

/-- The slot of a piece of work. -/
def slot : Work → Nat
  | split s _ => s
  | halve s _ => s

/-- The region of a piece of work. -/
def region : Work → Region
  | split _ r => r
  | halve _ r => r

end Work

/-- What is to be done about a region. -/
inductive Decision where
  /-- The build is to stop. -/
  | stop
  | leaf (reason : LeafReason)
  /-- Move the objects to the sides of a plane. -/
  | divide (s : Split)
  /-- No split was found: halve the region from now on. -/
  | giveUp
  /-- Cut the region in the middle. -/
  | cut
  deriving DecidableEq

/-- A task in progress. -/
structure Task where
  chunk : Chunk
  stats : Statistics := {}
  /-- The table of the exact split search, kept from one search to the next. -/
  table : Array Scalar := #[]
  /-- What is left to build, in order. -/
  pending : List Work

namespace Task

/-- The task of a job at its start: its root has the first slot. -/
def start (j : BuildJob) : Except BuildError Task :=
  ((Chunk.empty j.chunk).alloc).map fun (slot, chunk) =>
    { chunk := chunk, pending := [.split slot j.region] }

variable {σ : Type}

/-- Decides about a region that is to be split. -/
def decideSplit (p : Plan) (stop : Asking σ Bool) (b : Buffers) (r : Region)
    (table : Array Scalar) : Asking σ (Decision × Array Scalar) := do
  if ← stop then pure (.stop, table)
  else if r.size ≤ p.settings.leafThreshold then pure (.leaf .underThreshold, table)
  else if Plan.maxDepth ≤ r.depth then pure (.leaf .maxDepth, table)
  else
    let (found, table) ← p.findSplit stop b r table
    if ← stop then pure (.stop, table)
    else
      match found with
      | none => pure (.giveUp, table)
      | some s =>
        let area := r.extent.bounds.surfaceArea
        if p.cost.prefersLeaf s.cost area r.size p.settings.maxPerLeaf then
          pure (.leaf .cheaperNotToSplit, table)
        else pure (.divide s, table)

/-- Decides about a region that is to be halved. -/
def decideHalve (p : Plan) (stop : Asking σ Bool) (r : Region) : Asking σ Decision := do
  if ← stop then pure .stop
  else if r.size ≤ p.settings.maxPerLeaf then pure (.leaf .arbitrarySplit)
  else pure .cut

/-- Decides about a piece of work. -/
def decide (p : Plan) (stop : Asking σ Bool) (b : Buffers) (table : Array Scalar) :
    Work → Asking σ (Decision × Array Scalar)
  | .split _ r => decideSplit p stop b r table
  | .halve _ r => do pure (← decideHalve p stop r, table)

end Task

/-- What a task changes when it carries out a decision. -/
structure Effect where
  buffers : Buffers
  chunk : Chunk
  stats : Statistics
  /-- The number of the next chunk. -/
  nextChunk : Nat
  /-- The work that replaces the piece that was worked off. -/
  work : List Work := []
  /-- The job that is submitted, if there is one. -/
  job : Option BuildJob := none

namespace Effect

/-- A result of a step that may fault. -/
def ofFault {α : Type} (r : Except Fault α) : Except Failure α := r.mapError .fault

/-- A result of a step that may end in an error. -/
def ofError {α : Type} (r : Except BuildError α) : Except Failure α := r.mapError .error

/-- Updated counters, or the fault of the update. -/
def counted (r : Statistics × Except Fault Unit) : Except Failure Statistics :=
  match r with
  | (s, .ok ()) => .ok s
  | (_, .error f) => .error (.fault f)

/-- Makes a leaf of a region: its order is final from now on. -/
def leaf (e : Effect) (slot : Nat) (r : Region) (reason : LeafReason) : Except Failure Effect := do
  let buffers ← ofFault (e.buffers.settle r.side r.first r.last)
  let chunk ← ofFault (e.chunk.write slot ⟨r.extent.bounds, .leaf r.first r.last, r.depth⟩)
  let stats ← counted (e.stats.recordLeaf reason r.depth r.size)
  pure { e with buffers := buffers, chunk := chunk, stats := stats }

/-- Makes an interior node of a region whose right part becomes a job of its own. -/
def branchApart (e : Effect) (slot : Nat) (r left right : Region) : Except Failure Effect := do
  let (leftSlot, chunk) ← ofError e.chunk.alloc
  let chunk ← ofFault
    (chunk.write slot ⟨r.extent.bounds, .interior leftSlot (.chunk e.nextChunk), r.depth⟩)
  let stats ← counted e.stats.recordInterior
  pure { e with
    chunk := chunk, stats := stats, nextChunk := e.nextChunk + 1
    work := [.split leftSlot left], job := some ⟨e.nextChunk, right⟩ }

/-- Makes an interior node of a region both of whose parts stay in the task. -/
def branchHere (e : Effect) (slot : Nat) (r left right : Region) (work : Nat → Region → Work) :
    Except Failure Effect := do
  let (leftSlot, chunk) ← ofError e.chunk.alloc
  let (rightSlot, chunk) ← ofError chunk.alloc
  let chunk ← ofFault
    (chunk.write slot ⟨r.extent.bounds, .interior leftSlot (.here rightSlot), r.depth⟩)
  let stats ← counted e.stats.recordInterior
  pure { e with chunk := chunk, stats := stats, work := [work leftSlot left, work rightSlot right] }

/-- Divides a region by a split. Where one side would stay empty the region is halved instead,
as it was before the attempt. The right part becomes a job of its own when both parts are
large enough. -/
def divide (p : Plan) (e : Effect) (slot : Nat) (r : Region) (s : Split) : Except Failure Effect :=
  match e with
  | ⟨buffers, chunk, stats, nextChunk, work, job⟩ => do
    let (buffers, halves, side) ← ofFault (p.partition buffers r s)
    let e : Effect := ⟨buffers, chunk, stats, nextChunk, work, job⟩
    if halves.isDegenerate then pure { e with work := [.halve slot r] }
    else
      let mid := r.first + halves.left.count
      let left := r.before mid halves.left.extent side
      let right := r.after mid halves.right.extent side
      let threshold := p.settings.taskThreshold
      if threshold ≤ left.size && threshold ≤ right.size then e.branchApart slot r left right
      else e.branchHere slot r left right .split

/-- Cuts a region in the middle, whatever its objects. -/
def cut (e : Effect) (slot : Nat) (r : Region) : Except Failure Effect := do
  let mid := r.first + r.size / 2
  let left ← ofFault (Plan.extentOf e.buffers r.side r.first mid)
  let right ← ofFault (Plan.extentOf e.buffers r.side mid r.last)
  e.branchHere slot r (r.before mid left r.side) (r.after mid right r.side) .halve

/-- Carries out a decision about a piece of work. -/
def perform (p : Plan) (e : Effect) (w : Work) : Decision → Except Failure Effect
  | .stop => .ok e
  | .leaf reason => e.leaf w.slot w.region reason
  | .divide s => e.divide p w.slot w.region s
  | .giveUp => .ok { e with work := [.halve w.slot w.region] }
  | .cut => e.cut w.slot w.region

end Effect

end BoxTree

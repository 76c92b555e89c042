import BoxTree.Node
/-!
# Chunks

Every task of a build writes its nodes into a chunk of its own. A slot is taken before it is
filled, so that a parent can name its children while they are being built. The right child of
a node may be the root of another chunk.
-/

namespace BoxTree

/-- The right child of a node in a chunk. -/
inductive ChildRef where
  /-- A slot of the same chunk. -/
  | here (slot : Nat)
  /-- The root of another chunk. -/
  | chunk (id : Nat)
  deriving DecidableEq, Repr

/-- What a node in a chunk holds. -/
inductive ChunkKind where
  | interior (left : Nat) (right : ChildRef)
  | leaf (first last : Nat)
  deriving DecidableEq, Repr

/-- A node in a chunk. -/
structure ChunkNode where
  bounds : Box
  kind : ChunkKind
  depth : Nat
  deriving DecidableEq

/-- The nodes of one task. -/
structure Chunk where
  id : Nat
  slots : Array (Option ChunkNode)

namespace Chunk

/-- A chunk without slots. -/
def empty (id : Nat) : Chunk := ⟨id, #[]⟩

/-- The number of slots. -/
def size (c : Chunk) : Nat := c.slots.size

/-- Takes the next slot. -/
def alloc (c : Chunk) : Except BuildError (Nat × Chunk) :=
  if limit32 ≤ c.size then .error (.tooManyObjects c.size)
  else .ok (c.size, { c with slots := c.slots.push none })

/-- Fills a slot. It has to be taken and still empty. -/
def write (c : Chunk) (slot : Nat) (n : ChunkNode) : Except Fault Chunk :=
  match c.slots[slot]? with
  | none => .error (.indexOutOfRange slot c.size)
  | some (some _) => .error (.assertion s!"node {slot} of chunk {c.id} written twice")
  | some none => .ok { c with slots := c.slots.setIfInBounds slot (some n) }

end Chunk

/-- Why chunks do not fit together. -/
inductive MergeFault where
  /-- A chunk is not at the place of its number. -/
  | misplaced (id place : Nat)
  /-- A chunk holds an empty slot. -/
  | unwritten (slot id : Nat)
  /-- A node names a chunk that is not there. -/
  | missing (id : Nat)
  /-- No task has reported a chunk. -/
  | unreported (id : Nat)
  /-- A task has reported a chunk whose number was not given out. -/
  | unexpected (id : Nat)
  deriving DecidableEq, Repr

namespace MergeFault

/-- The text of a merge fault. -/
def message : MergeFault → String
  | misplaced id place => s!"chunk {id} found at position {place}"
  | unwritten slot id => s!"node {slot} of chunk {id} was never written"
  | missing id => s!"reference to missing chunk {id}"
  | unreported id => s!"chunk {id} was never reported"
  | unexpected id => s!"unexpected chunk {id}"

/-- A merge fault as the error of a build. -/
def toError (f : MergeFault) : BuildError := .internal f.message

end MergeFault

namespace Chunk

/-- Where every chunk begins when chunks are laid end to end, and where the last one ends.
Chunk `i` has to be the one with number `i`. -/
def offsets : (place total : Nat) → List Chunk → Except BuildError (List Nat × Nat)
  | _, total, [] => .ok ([], total)
  | place, total, c :: rest =>
    if c.id ≠ place then .error (MergeFault.misplaced c.id place).toError
    else do
      let (starts, last) ← offsets (place + 1) (total + c.size) rest
      pure (total :: starts, last)

/-- A slot number moved by the start of its chunk. -/
def shift (slot start : Nat) : Except Failure Nat :=
  match addWithin limit32 slot start with
  | .ok n => .ok n
  | .error f => .error (.fault f)

/-- The place of a right child in the merged array. -/
def resolve (starts : Array Nat) (start : Nat) : ChildRef → Except Failure Nat
  | .here slot => shift slot start
  | .chunk id =>
    match starts[id]? with
    | some n => .ok n
    | none => .error (.error (MergeFault.missing id).toError)

/-- The merged form of a node in a chunk that starts at `start`. -/
def rebaseNode (starts : Array Nat) (start : Nat) (n : ChunkNode) : Except Failure Node :=
  match n.kind with
  | .leaf a b => .ok ⟨n.bounds, .leaf a b, n.depth⟩
  | .interior l r => do
    let right ← resolve starts start r
    let left ← shift l start
    pure ⟨n.bounds, .interior left right, n.depth⟩

/-- The merged form of a slot. -/
def rebaseSlot (starts : Array Nat) (id start slot : Nat) : Option ChunkNode → Except Failure Node
  | none => .error (.error (MergeFault.unwritten slot id).toError)
  | some n => rebaseNode starts start n

/-- The merged form of the slots of a chunk. -/
def rebase (starts : Array Nat) (c : Chunk) (start : Nat) : Except Failure (List Node) :=
  (c.slots.toList.zipIdx).mapM fun (slot, i) => rebaseSlot starts c.id start i slot

/-- Lays chunks end to end into one array of nodes, in the order of their numbers. A slot moves
by the start of its chunk, and a reference to another chunk becomes the start of that chunk,
whose root is its first node. -/
def merge (chunks : List Chunk) : Except Failure (List Node) := do
  let (starts, total) ←
    match offsets 0 0 chunks with
    | .ok r => pure r
    | .error e => throw (.error e)
  if limit32 < total then throw (.error (.tooManyObjects total))
  let places := starts.toArray
  let pieces ← (chunks.zip starts).mapM fun (c, start) => rebase places c start
  pure pieces.flatten

end Chunk

end BoxTree

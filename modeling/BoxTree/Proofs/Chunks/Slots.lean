import BoxTree.Proofs.Machine.Ledger
/-!
# The slots of a chunk

A slot is taken before it is filled. The **nodes** of a chunk are what its filled slots hold, and
its **children** are the slots that those nodes name. Taking slots adds no node, and filling one
adds the node that is written (`Chunk.nodes_filled`), wherever the slot lies. All that is said of
children and of other chunks is therefore said of a list to which a node is added at a time.
-/

namespace BoxTree

namespace ChunkKind

/-- The slots of the same chunk that a node names: that of its left child, and that of its right one
unless that is the root of another chunk. -/
def slots : ChunkKind → List Nat
  | interior left (.here right) => [left, right]
  | interior left (.chunk _) => [left]
  | leaf _ _ => []

/-- The other chunks that a node names: that of its right child, if it has one of its own. -/
def chunks : ChunkKind → List Nat
  | interior _ (.chunk id) => [id]
  | interior _ (.here _) => []
  | leaf _ _ => []

end ChunkKind

namespace Chunk

open List

/-- Filling an empty place of a list adds its value to those that are there. -/
theorem filterMap_set_perm {α : Type} {xs : List (Option α)} {i : Nat} {a : α}
    (h : xs[i]? = some none) (start : Nat) :
    (((xs.set i (some a)).zipIdx start).filterMap fun x => x.1.map (x.2, ·)).Perm
      ((start + i, a) :: (xs.zipIdx start).filterMap fun x => x.1.map (x.2, ·)) := by
  induction xs generalizing i start with
  | nil => cases h
  | cons x rest ih =>
    cases i with
    | zero =>
      cases h
      exact .refl _
    | succ i =>
      have hrest := ih (i := i) h (start + 1)
      rw [Nat.add_right_comm, Nat.add_assoc] at hrest
      rw [List.set_cons_succ, List.zipIdx_cons, List.zipIdx_cons]
      cases x with
      | none => exact hrest
      | some b => exact (hrest.cons (start, b)).trans (.swap ..)

/-- The nodes that are written, with their slots. -/
def nodes (c : Chunk) : List (Nat × ChunkNode) :=
  c.slots.toList.zipIdx.filterMap fun x => x.1.map (x.2, ·)

/-- The slots that the written nodes name as those of their children. -/
def children (c : Chunk) : List Nat := c.nodes.flatMap fun n => n.2.kind.slots

/-- The other chunks that the written nodes name. -/
def others (c : Chunk) : List Nat := c.nodes.flatMap fun n => n.2.kind.chunks

/-- A chunk with a number of slots more, still empty. -/
def grow (c : Chunk) (count : Nat) : Chunk := grown^[count] c

variable {c : Chunk} {slot count : Nat} {node : ChunkNode}

theorem mem_nodes : (slot, node) ∈ c.nodes ↔ c.slots[slot]? = some (some node) := by
  rw [nodes, List.mem_filterMap, ← Array.getElem?_toList]
  constructor
  · rintro ⟨⟨x, i⟩, hx, hn⟩
    obtain ⟨n, rfl, hn⟩ := Option.map_eq_some_iff.1 hn
    cases hn
    exact List.mem_zipIdx_iff_getElem?.1 hx
  · exact fun h => ⟨(some node, slot), List.mem_zipIdx_iff_getElem?.2 h, rfl⟩

/-- A slot without a node is empty. -/
theorem slots_of_not_mem (hslot : slot < c.size) (h : slot ∉ c.nodes.map Prod.fst) :
    c.slots[slot]? = some none := by
  cases hx : c.slots[slot]? with
  | none => exact absurd (Array.getElem?_eq_none_iff.1 hx) (Nat.not_le_of_lt hslot)
  | some x =>
    cases x with
    | none => rfl
    | some n => exact absurd (List.mem_map.2 ⟨(slot, n), mem_nodes.2 hx, rfl⟩) h

@[simp] theorem nodes_grown (c : Chunk) : c.grown.nodes = c.nodes := by
  rw [nodes, grown, Array.toList_push, List.zipIdx_append, List.filterMap_append]
  exact List.append_nil _

@[simp] theorem nodes_grow (c : Chunk) (count : Nat) : (c.grow count).nodes = c.nodes := by
  induction count generalizing c with
  | zero => rfl
  | succ count ih => exact (ih c.grown).trans c.nodes_grown

@[simp] theorem size_grow (c : Chunk) (count : Nat) : (c.grow count).size = c.size + count := by
  induction count generalizing c with
  | zero => rfl
  | succ count ih =>
    have hsize := ih c.grown
    rw [size_grown] at hsize
    change (c.grown.grow count).size = _
    omega

/-- A slot stays as it is when others are taken. -/
theorem slots_grow (h : slot < c.size) (count : Nat) :
    (c.grow count).slots[slot]? = c.slots[slot]? := by
  induction count generalizing c with
  | zero => rfl
  | succ count ih =>
    have hsize := size_grown c
    exact (ih (by omega)).trans (slots_grown h)

/-- **Filling an empty slot** adds its node. -/
theorem nodes_filled (h : c.slots[slot]? = some none) :
    (c.filled slot node).nodes.Perm ((slot, node) :: c.nodes) := by
  rw [← Array.getElem?_toList] at h
  have hset := filterMap_set_perm (a := node) h 0
  rw [Nat.zero_add] at hset
  rw [nodes, filled, Array.toList_setIfInBounds]
  exact hset

/-! ## Filling a slot of a chunk that has grown -/

/-- The next slots of a chunk follow those that are taken. -/
theorem range_perm {size count : Nat} {taken : List Nat} (h : taken.Perm (List.range size)) :
    (List.range' size count ++ taken).Perm (List.range (size + count)) := by
  rw [List.range_add, ← List.range'_eq_map_range]
  exact List.perm_append_comm.trans (h.append_right _)

/-- A chunk each of whose slots but the first is the child of one node, which lies before it. -/
structure Linked (c : Chunk) : Prop where
  /-- The first slot and those that nodes name are all slots, each of them once. -/
  children : (0 :: c.children).Perm (List.range c.size)
  ahead : ∀ n ∈ c.nodes, ∀ slot ∈ n.2.kind.slots, n.1 < slot

/-- A chunk that has grown, with a slot filled. -/
def fill (c : Chunk) (count slot : Nat) (node : ChunkNode) : Chunk :=
  (c.grow count).filled slot node

theorem size_fill (c : Chunk) (count slot : Nat) (node : ChunkNode) :
    (c.fill count slot node).size = c.size + count := by
  rw [fill, size_filled, size_grow]

section Fill

variable (hslot : c.slots[slot]? = some none)
include hslot

theorem nodes_fill (count : Nat) (node : ChunkNode) :
    (c.fill count slot node).nodes ~ (slot, node) :: c.nodes := by
  rw [← c.nodes_grow count]
  exact nodes_filled ((slots_grow (slot_lt hslot) count).trans hslot)

/-- The slot is now that of a node, and the new slots come to those that were left. -/
theorem slots_fill (count : Nat) (node : ChunkNode) {left : List Nat}
    (h : c.nodes.map Prod.fst ++ slot :: left ~ List.range c.size) :
    (c.fill count slot node).nodes.map Prod.fst ++ (List.range' c.size count ++ left) ~
      List.range (c.size + count) := by
  refine .trans ?_ (range_perm h)
  calc (c.fill count slot node).nodes.map Prod.fst ++ (List.range' c.size count ++ left)
    _ ~ slot :: c.nodes.map Prod.fst ++ (List.range' c.size count ++ left) :=
      ((nodes_fill hslot count node).map Prod.fst).append_right _
    _ ~ List.range' c.size count ++ (slot :: c.nodes.map Prod.fst ++ left) :=
      List.perm_append_comm_assoc ..
    _ ~ List.range' c.size count ++ (c.nodes.map Prod.fst ++ slot :: left) :=
      List.perm_middle.symm.append_left _

/-- The other chunks that a node names come to those that were named before. -/
theorem others_fill (count : Nat) (node : ChunkNode) :
    (c.fill count slot node).others ~ c.others ++ node.kind.chunks :=
  ((nodes_fill hslot count node).flatMap_right _).trans List.perm_append_comm

/-- **A node whose children are the new slots** keeps a chunk linked. -/
theorem Linked.fill (h : c.Linked) (hnode : node.kind.slots = List.range' c.size count) :
    (c.fill count slot node).Linked where
  children := by
    rw [size_fill]
    refine .trans ?_ (range_perm h.children)
    calc 0 :: (c.fill count slot node).children
      _ ~ 0 :: (List.range' c.size count ++ c.children) := by
        rw [← hnode]
        exact ((nodes_fill hslot count node).flatMap_right _).cons 0
      _ ~ List.range' c.size count ++ 0 :: c.children := List.perm_middle.symm
  ahead n hn slot' hslot' := by
    rcases List.mem_cons.1 ((nodes_fill hslot count node).mem_iff.1 hn) with rfl | hn
    · rw [hnode, List.mem_range'_1] at hslot'
      exact Nat.lt_of_lt_of_le (slot_lt hslot) hslot'.1
    · exact h.ahead n hn slot' hslot'

end Fill

end Chunk

end BoxTree

import BoxTree.Proofs.Chunks.Merging
import Mathlib.Data.Set.Function
/-!
# What merging does to chunks

Merging moves every node to the index of its place and renames its children to match. This file
says which chunks can be merged at all: those that are numbered by their places, not too large
together, written throughout, and without a reference to a chunk that is not there
(`Chunk.Mergeable`). A merge looks at nothing else, as long as the chunks are closed
(`Chunk.Closed`).
-/

namespace BoxTree

namespace Chunk

/-- Every chunk has a slot for its root, and what its nodes name as a slot of the same chunk is
one. -/
structure Closed (chunks : List Chunk) : Prop where
  root : ∀ c ∈ chunks, 0 < c.size
  left : ∀ c ∈ chunks, ∀ n, some n ∈ c.slots.toList → ∀ l r, n.kind = .interior l r → l < c.size
  right : ∀ c ∈ chunks, ∀ n, some n ∈ c.slots.toList → ∀ l slot,
    n.kind = .interior l (.here slot) → slot < c.size

/-- What a merge asks of chunks. -/
structure Mergeable (chunks : List Chunk) : Prop where
  /-- Every chunk is at the place of its number. -/
  ids : ∀ (i : Nat) (c : Chunk), chunks[i]? = some c → c.id = i
  /-- There are numbers for all nodes. -/
  numbers : total chunks ≤ limit32
  /-- No slot is empty. -/
  written : ∀ c ∈ chunks, none ∉ c.slots.toList
  /-- What a node names as another chunk is there. -/
  there : ∀ c ∈ chunks, ∀ n, some n ∈ c.slots.toList → ∀ l id,
    n.kind = .interior l (.chunk id) → id < chunks.length

/-- The places of chunks: the slots that were taken, by the places of their chunks. -/
def Lies (chunks : List Chunk) (a : Address) : Prop :=
  ∃ c, chunks[a.chunk]? = some c ∧ a.slot < c.size

/-- A node of the merged array is a node of a chunk, moved: its children are named by the indices of
their places. -/
structure Moves (chunks : List Chunk) (id : Nat) (n : ChunkNode) (node : Node) : Prop where
  bounds : node.bounds = n.bounds
  depth : node.depth = n.depth
  leaf : ∀ first last, n.kind = .leaf first last → node.kind = .leaf first last
  here : ∀ l slot, n.kind = .interior l (.here slot) →
    node.kind = .interior (index chunks ⟨id, l⟩) (index chunks ⟨id, slot⟩)
  apart : ∀ l other, n.kind = .interior l (.chunk other) →
    node.kind = .interior (index chunks ⟨id, l⟩) (index chunks ⟨other, 0⟩)

/-- Chunks are laid end to end. -/
structure Laid (chunks : List Chunk) (nodes : List Node) : Prop where
  /-- Every place has an index of its own, and there are no others. -/
  bijective : Set.BijOn (index chunks) {a | Lies chunks a} (Set.Iio nodes.length)
  /-- At the index of a place is the node of that place, moved. -/
  node : ∀ a, Lies chunks a → ∃ c n node, chunks[a.chunk]? = some c ∧
    c.slots[a.slot]? = some (some n) ∧ nodes[index chunks a]? = some node ∧
      Moves chunks a.chunk n node
  /-- Every child is in the array. -/
  child : ∀ node ∈ nodes, ∀ l r, node.kind = .interior l r → l < nodes.length ∧ r < nodes.length

variable {c : Chunk} {chunks : List Chunk} {a : Address} {i place : Nat} {n : ChunkNode}

/-- Numbers that are places are a range. -/
theorem map_id_eq_range_iff :
    chunks.map Chunk.id = List.range chunks.length ↔
      ∀ (i : Nat) (c : Chunk), chunks[i]? = some c → c.id = i := by
  constructor
  · intro hids i c hc
    have hi := (List.getElem?_eq_some_iff.1 hc).1
    have hid := congrArg (·[i]?) hids
    simp only [List.getElem?_map, hc, Option.map_some, List.getElem?_range hi] at hid
    exact Option.some.inj hid
  · intro hids
    refine List.ext_getElem (by rw [List.length_map, List.length_range]) fun i hi _ => ?_
    rw [List.length_map] at hi
    rw [List.getElem_map, List.getElem_range]
    exact hids i _ (List.getElem?_eq_getElem hi)

/-- Where chunks are numbered by their places, their places are the places of each. -/
theorem lies_iff (hids : chunks.map Chunk.id = List.range chunks.length) :
    Lies chunks a ↔ a ∈ chunks.flatMap places := by
  constructor
  · rintro ⟨c, hc, hslot⟩
    exact List.mem_flatMap.2 ⟨c, List.mem_of_getElem? hc,
      mem_places.2 ⟨(map_id_eq_range_iff.1 hids _ _ hc).symm, hslot⟩⟩
  · exact exists_of_mem_places hids

/-- **Every place has an index of its own.** -/
theorem index_bijOn (hids : chunks.map Chunk.id = List.range chunks.length) :
    Set.BijOn (index chunks) {a | Lies chunks a} (Set.Iio (total chunks)) := by
  have hmap := map_index_places hids
  have hplaces : ∀ b, Lies chunks b → b ∈ chunks.flatMap places := fun _ => (lies_iff hids).1
  have hnodup : ((chunks.flatMap places).map (index chunks)).Nodup := hmap ▸ List.nodup_range
  refine ⟨fun b hb => index_lt hids (hplaces b hb), fun b hb d hd heq => ?_, fun k hk => ?_⟩
  · exact List.inj_on_of_nodup_map hnodup (hplaces b hb) (hplaces d hd) heq
  · rw [Set.mem_Iio, ← List.mem_range, ← hmap] at hk
    obtain ⟨b, hb, rfl⟩ := List.mem_map.1 hk
    exact ⟨b, (lies_iff hids).2 hb, rfl⟩

/-- A slot of a chunk can be moved. -/
theorem shift_slot_eq {slot : Nat} (hids : chunks.map Chunk.id = List.range chunks.length)
    (htotal : total chunks ≤ limit32) (hc : c ∈ chunks) (hslot : slot < c.size) :
    shift slot (startOf chunks c.id) = .ok (index chunks ⟨c.id, slot⟩) := by
  have hplace : (⟨c.id, slot⟩ : Address) ∈ chunks.flatMap places :=
    List.mem_flatMap.2 ⟨c, hc, mem_places.2 ⟨rfl, hslot⟩⟩
  exact shift_eq hids htotal hplace

/-- Chunks of other numbers are turned away. -/
theorem offsets_eq_error (hids : chunks.map Chunk.id ≠ List.range' place chunks.length)
    (sum : Nat) : ∃ f : MergeFault, offsets place sum chunks = .error f.toError := by
  induction chunks generalizing place sum with
  | nil => exact absurd rfl hids
  | cons c rest ih =>
    by_cases hid : c.id = place
    · have hrest : rest.map Chunk.id ≠ List.range' (place + 1) rest.length := by
        intro hrest
        refine hids ?_
        rw [List.map_cons, List.length_cons, List.range'_succ, hid, hrest]
      obtain ⟨f, hf⟩ := ih hrest (sum + c.size)
      exact ⟨f, by rw [offsets, if_neg (not_not.2 hid), hf]; rfl⟩
    · exact ⟨_, by rw [offsets, if_pos hid]⟩

/-- A merge of chunks that are not numbered by their places ends in an error. -/
theorem merge_eq_error (hids : chunks.map Chunk.id ≠ List.range chunks.length) :
    ∃ f : MergeFault, merge chunks = .error (.error f.toError) := by
  rw [List.range_eq_range'] at hids
  obtain ⟨f, hf⟩ := offsets_eq_error hids 0
  refine ⟨f, ?_⟩
  simp only [merge, hf]
  rfl

/-! ## Closed chunks -/

namespace Closed

variable (h : Closed chunks)
include h

/-- Closed chunks that can be merged are whole. -/
theorem whole (hm : Mergeable chunks) : Whole chunks where
  ids := map_id_eq_range_iff.2 hm.ids
  filled := hm.written
  left c hc n hn l r hkind :=
    List.mem_flatMap.2 ⟨c, hc, mem_places.2 ⟨rfl, h.left c hc n hn l r hkind⟩⟩
  right c hc n hn l r hkind := by
    cases r with
    | here slot =>
      have hslot := h.right c hc n hn l slot hkind
      exact List.mem_flatMap.2 ⟨c, hc, mem_places.2 ⟨rfl, hslot⟩⟩
    | chunk id =>
      -- the chunk that is named has a root
      have hid := hm.there c hc n hn l id hkind
      have hget := List.getElem?_eq_getElem hid
      have hmem := List.getElem_mem hid
      exact List.mem_flatMap.2 ⟨_, hmem, mem_places.2 ⟨(hm.ids _ _ hget).symm, h.root _ hmem⟩⟩

/-- **No index of a closed chunk overflows.** -/
theorem rebaseSlot_ne_fault (hids : chunks.map Chunk.id = List.range chunks.length)
    (htotal : total chunks ≤ limit32) (hc : c ∈ chunks) {x : Option ChunkNode}
    (hx : x ∈ c.slots.toList) {starts : Array Nat} {slot : Nat} {f : Fault} :
    rebaseSlot starts c.id (startOf chunks c.id) slot x ≠ .error (.fault f) := by
  cases x with
  | none => nofun
  | some n =>
    intro hf
    rw [rebaseSlot, rebaseNode] at hf
    cases hkind : n.kind with
    | leaf first last =>
      rw [hkind] at hf
      cases hf
    | interior l r =>
      have hleft := shift_slot_eq hids htotal hc (h.left c hc n hx l r hkind)
      rw [hkind] at hf
      simp only [hleft, ok_bind] at hf
      rcases bind_eq_error hf with hr | ⟨_, -, hf⟩
      · cases r with
        | here slot =>
          rw [resolve, shift_slot_eq hids htotal hc (h.right c hc n hx l slot hkind)] at hr
          cases hr
        | chunk id =>
          rw [resolve] at hr
          split at hr <;> cases hr
      · cases hf

/-- **Merging closed chunks does not fault.** -/
theorem merge_ne_fault (f : Fault) : merge chunks ≠ .error (.fault f) := by
  intro hf
  by_cases hids : chunks.map Chunk.id = List.range chunks.length
  · rw [merge_eq hids] at hf
    split at hf
    · cases hf
    · rename_i htotal
      obtain ⟨c, hc, hf⟩ := exists_of_mapM_eq_error (map_eq_error hf)
      obtain ⟨⟨x, i⟩, hx, hf⟩ := exists_of_mapM_eq_error hf
      have hslot := List.fst_mem_of_mem_zipIdx hx
      exact h.rebaseSlot_ne_fault hids (Nat.le_of_not_lt htotal) hc hslot hf
  · obtain ⟨e, he⟩ := merge_eq_error hids
    cases he.symm.trans hf

end Closed

/-! ## Chunks that were merged -/

/-- A node that was moved names no chunk that is not there. -/
theorem lt_of_rebaseNode {l id start : Nat} {node : Node}
    (h : rebaseNode ((List.range chunks.length).map (startOf chunks)).toArray start n = .ok node)
    (hkind : n.kind = .interior l (.chunk id)) : id < chunks.length := by
  rw [rebaseNode, hkind] at h
  obtain ⟨right, hright, -⟩ := bind_eq_ok_iff.1 h
  by_contra hid
  have hnone : ((List.range chunks.length).map (startOf chunks)).toArray[id]? = none := by
    rw [List.getElem?_toArray, List.getElem?_eq_none_iff, List.length_map, List.length_range]
    exact Nat.le_of_not_lt hid
  rw [resolve, hnone] at hright
  cases hright

/-- **What was merged could be merged.** -/
theorem mergeable_of_merge {nodes : List Node} (h : merge chunks = .ok nodes) :
    Mergeable chunks := by
  have hids : chunks.map Chunk.id = List.range chunks.length := by
    by_contra hids
    obtain ⟨f, hf⟩ := merge_eq_error hids
    cases hf.symm.trans h
  rw [merge_eq hids] at h
  split at h
  · cases h
  · rename_i htotal
    obtain ⟨pieces, hpieces, -⟩ := map_eq_ok_iff.1 h
    -- every slot of every chunk was moved
    have hslot : ∀ c ∈ chunks, ∀ x ∈ c.slots.toList, ∃ n node, x = some n ∧
        rebaseNode ((List.range chunks.length).map (startOf chunks)).toArray
          (startOf chunks c.id) n = .ok node := by
      intro c hc x hx
      obtain ⟨piece, hpiece⟩ := exists_of_mapM_eq_ok hpieces c hc
      obtain ⟨i, hi⟩ := List.mem_iff_getElem?.1 hx
      obtain ⟨node, hnode⟩ :=
        exists_of_mapM_eq_ok hpiece (x, i) (List.mem_zipIdx_iff_getElem?.2 hi)
      cases x with
      | none => cases hnode
      | some n => exact ⟨n, node, rfl, hnode⟩
    refine ⟨map_id_eq_range_iff.1 hids, Nat.le_of_not_lt htotal, fun c hc hnone => ?_,
      fun c hc n hn l id hkind => ?_⟩
    · obtain ⟨n, -, hn, -⟩ := hslot c hc none hnone
      cases hn
    · obtain ⟨m, node, hm, hnode⟩ := hslot c hc _ hn
      cases hm
      exact lt_of_rebaseNode hnode hkind

theorem moves_moved (chunks : List Chunk) (id : Nat) (n : ChunkNode) :
    Moves chunks id n (moved chunks id n) where
  bounds := by
    unfold moved
    split <;> rfl
  depth := by
    unfold moved
    split <;> rfl
  leaf _ _ hkind := by simp only [moved, hkind]
  here _ _ hkind := by simp only [moved, hkind, target]
  apart _ _ hkind := by simp only [moved, hkind, target]

/-- **Whole chunks are laid end to end.** -/
theorem Whole.laid (h : Whole chunks) : Laid chunks (merged chunks) where
  bijective := h.length_merged ▸ index_bijOn h.ids
  node a ha := by
    obtain ⟨c, hc, hslot⟩ := ha
    have hmem := List.mem_of_getElem? hc
    have hid : c.id = a.chunk := map_id_eq_range_iff.1 h.ids _ _ hc
    obtain ⟨n, hn⟩ : ∃ n, c.slots[a.slot]? = some (some n) := by
      have hslot' : a.slot < c.slots.size := hslot
      have hmem' := Array.getElem_mem_toList hslot'
      rw [Array.getElem?_eq_getElem hslot']
      cases hx : c.slots[a.slot] with
      | none => exact absurd (hx ▸ hmem') (h.filled c hmem)
      | some n => exact ⟨n, rfl⟩
    exact ⟨c, n, _, hc, hn, h.getElem?_merged ⟨c, hmem, hid, hn⟩, moves_moved chunks a.chunk n⟩
  child node hnode l r hkind := by
    obtain ⟨c, hc, hnode⟩ := List.mem_flatMap.1 hnode
    obtain ⟨n, hn, rfl⟩ := List.mem_map.1 hnode
    have hsome : some n ∈ c.slots.toList := List.reduceOption_mem_iff.1 hn
    rw [h.length_merged]
    unfold moved at hkind
    cases hold : n.kind with
    | leaf first last =>
      rw [hold] at hkind
      cases hkind
    | interior l' r' =>
      rw [hold] at hkind
      cases hkind
      exact ⟨index_lt h.ids (h.left c hc n hsome l' r' hold),
        index_lt h.ids (h.right c hc n hsome l' r' hold)⟩

/-- **Closed chunks are merged exactly when they can be.** Let every chunk have a slot, and let what
is named as a slot of the same chunk be one. Then there is a merged array exactly when the chunks
are numbered by their places, have at most as many slots as there are numbers, are written
throughout, and name only chunks that are there. In that case they are laid end to end, with every
node at the index of its place and its children named by the indices of theirs. In no case does an
index overflow. -/
theorem Closed.merge_laid (h : Closed chunks) :
    ((∃ nodes, merge chunks = .ok nodes) ↔ Mergeable chunks) ∧
      (∀ nodes, merge chunks = .ok nodes → Laid chunks nodes) ∧
      ∀ f, merge chunks ≠ .error (.fault f) := by
  have hok : Mergeable chunks → merge chunks = .ok (merged chunks) := by
    intro hm
    rcases (h.whole hm).merge_cases with ⟨htotal, -⟩ | ⟨-, hmerge⟩
    · exact absurd hm.numbers (Nat.not_le_of_lt htotal)
    · exact hmerge
  refine ⟨⟨fun ⟨_, hnodes⟩ => mergeable_of_merge hnodes, fun hm => ⟨_, hok hm⟩⟩,
    fun nodes hnodes => ?_, h.merge_ne_fault⟩
  have hm := mergeable_of_merge hnodes
  cases (hok hm).symm.trans hnodes
  exact (h.whole hm).laid

/-- A chunk whose root has its right child in the other chunk, and that other chunk. -/
def couple : List Chunk :=
  [⟨0, #[some ⟨.empty, .interior 1 (.chunk 1), 0⟩, some ⟨.empty, .leaf 0 2, 1⟩]⟩,
    ⟨1, #[some ⟨.empty, .interior 1 (.here 2), 1⟩, some ⟨.empty, .leaf 2 3, 2⟩,
      some ⟨.empty, .leaf 3 4, 2⟩]⟩]

theorem couple_closed : Closed couple := by
  constructor <;> simp [couple, size]

theorem couple_laid : Closed couple ∧ Mergeable couple ∧ ∃ nodes, merge couple = .ok nodes ∧
    nodes.length = 5 ∧ Laid couple nodes := by
  obtain ⟨hiff, hlaid, -⟩ := Closed.merge_laid couple_closed
  have hmerge : merge couple = .ok (merged couple) := by rfl
  exact ⟨couple_closed, hiff.1 ⟨_, hmerge⟩, _, hmerge, rfl, hlaid _ hmerge⟩

end Chunk

end BoxTree

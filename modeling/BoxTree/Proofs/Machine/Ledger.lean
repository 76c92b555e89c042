import BoxTree.Proofs.Growth.Sketch
import Mathlib.Data.List.Nodup
/-!
# The chunks of a build

All chunks of a build together hold exactly the nodes of its sketch: their numbers are those given
out so far, every slot is the place of one node, nodes that are built are written and all others are
empty, and the counters add up. A task that carries out a move changes its own chunk and may take a
number for a new one (`Ledger.graft`).
-/

namespace BoxTree

namespace Chunk

/-- The chunk of a job that has not been started: it will have a slot for its root. -/
def blank (id : Nat) : Chunk := (empty id).grown

/-- The places in a chunk. -/
def places (c : Chunk) : List Address := (List.range c.size).map (Address.mk c.id)

/-- What a list of chunks holds at a place. -/
def Kept (chunks : List Chunk) (a : Address) (x : Option ChunkNode) : Prop :=
  ∃ c ∈ chunks, c.id = a.chunk ∧ c.slots[a.slot]? = some x

variable {c c' : Chunk} {chunks chunks' others : List Chunk} {a : Address} {slot : Nat}
  {x : Option ChunkNode} {node : ChunkNode}

theorem mem_places : a ∈ c.places ↔ a.chunk = c.id ∧ a.slot < c.size := by
  obtain ⟨chunk, slot⟩ := a
  simp only [places, List.mem_map, List.mem_range, Address.mk.injEq]
  constructor
  · rintro ⟨i, hi, rfl, rfl⟩
    exact ⟨rfl, hi⟩
  · rintro ⟨rfl, hslot⟩
    exact ⟨slot, hslot, rfl, rfl⟩

@[simp] theorem places_grown (c : Chunk) : c.grown.places = c.places ++ [⟨c.id, c.size⟩] := by
  rw [places, size_grown, List.range_succ, List.map_append]
  rfl

@[simp] theorem places_filled (c : Chunk) (slot : Nat) (node : ChunkNode) :
    (c.filled slot node).places = c.places := by
  rw [places, size_filled]
  rfl

theorem Kept.perm (h : Kept chunks a x) (hp : chunks.Perm chunks') : Kept chunks' a x := by
  obtain ⟨c, hc, hid, hx⟩ := h
  exact ⟨c, hp.mem_iff.1 hc, hid, hx⟩

/-- What is held at a place of the first chunk is held by no other one. -/
theorem kept_cons_iff (hnodup : ((c :: others).map Chunk.id).Nodup) (ha : a.chunk = c.id) :
    Kept (c :: others) a x ↔ c.slots[a.slot]? = some x := by
  constructor
  · rintro ⟨d, hd, hid, hx⟩
    rcases List.mem_cons.1 hd with rfl | hd
    · exact hx
    · rw [List.map_cons, List.nodup_cons] at hnodup
      exact absurd (List.mem_map.2 ⟨d, hd, hid.trans ha⟩) hnodup.1
  · exact fun h => ⟨c, List.mem_cons_self, ha.symm, h⟩

theorem slots_filled_of_ne {i : Nat} (h : slot ≠ i) :
    (c.filled slot node).slots[i]? = c.slots[i]? := Array.getElem?_setIfInBounds_ne h

theorem slots_filled_self (h : slot < c.size) :
    (c.filled slot node).slots[slot]? = some (some node) :=
  Array.getElem?_setIfInBounds_self_of_lt h

theorem slots_grown_size (c : Chunk) : c.grown.slots[c.size]? = some none :=
  Array.getElem?_push_size

theorem lt_size_of_slots (h : c.slots[slot]? = some x) : slot < c.size :=
  (Array.getElem?_eq_some_iff.1 h).1

end Chunk

open Chunk Sketch List

/-- The chunks of a build hold the nodes of a sketch. -/
structure Ledger (chunks : List Chunk) (count : Nat) (tallies : List Statistics) (sk : Sketch) :
    Prop where
  ids : (chunks.map Chunk.id).Perm (List.range count)
  places : sk.places.Perm (chunks.flatMap Chunk.places)
  written : sk.Written (Kept chunks)
  stats : tallies.sum = sk.stats
  jobs : count = sk.jobs + 1

namespace Ledger

variable {p : Plan} {c : Chunk} {chunks chunks' others : List Chunk} {count slot : Nat}
  {tallies tallies' : List Statistics} {s : Statistics} {sk sk' : Sketch} {q : Plot} {m : Move}
  {e e' : Effect}

/-- The order of the chunks does not matter, nor how the counters are grouped. -/
theorem perm (h : Ledger chunks count tallies sk) (hc : chunks.Perm chunks')
    (ht : tallies'.sum = tallies.sum) : Ledger chunks' count tallies' sk where
  ids := (hc.map _).symm.trans h.ids
  places := h.places.trans (hc.flatMap_right _)
  written := h.written.imp fun _ _ _ hx => hx.perm hc
  stats := ht.trans h.stats
  jobs := h.jobs

theorem nodup_ids (h : Ledger chunks count tallies sk) : (chunks.map Chunk.id).Nodup :=
  h.ids.nodup_iff.2 List.nodup_range

theorem nodup_places (h : Ledger chunks count tallies sk) : sk.places.Nodup := by
  rw [h.places.nodup_iff]
  have hnodup := h.nodup_ids
  clear h
  induction chunks with
  | nil => exact List.nodup_nil
  | cons c rest ih =>
    rw [List.map_cons, List.nodup_cons] at hnodup
    rw [List.flatMap_cons, List.nodup_append]
    refine ⟨?_, ih hnodup.2, ?_⟩
    · exact List.Nodup.map (fun i j hij => (Address.mk.inj hij).2) List.nodup_range
    -- a place names its chunk, so that no other chunk has it
    · rintro a ha b hb rfl
      obtain ⟨d, hd, had⟩ := List.mem_flatMap.1 hb
      exact hnodup.1
        (List.mem_map.2 ⟨d, hd, (mem_places.1 had).1.symm.trans (mem_places.1 ha).1⟩)

/-- The slot of a bare node is empty. -/
theorem slot_eq (h : Ledger (c :: others) count tallies sk) (hq : (⟨c.id, slot⟩, q) ∈ sk.plots) :
    c.slots[slot]? = some none :=
  (kept_cons_iff h.nodup_ids rfl).1 (h.written.plot hq)

/-- No chunk has more slots than the sketch has nodes. -/
theorem size_le (h : Ledger (c :: others) count tallies sk) : c.size ≤ sk.places.length := by
  rw [h.places.length_eq, List.flatMap_cons, List.length_append, Chunk.places, List.length_map,
    List.length_range]
  exact Nat.le_add_right _ _

theorem id_lt (h : Ledger (c :: others) count tallies sk) : c.id < count :=
  List.mem_range.1 (h.ids.mem_iff.1 List.mem_cons_self)

/-! ## A move carried out -/

/-- **A part is grafted.** The task's chunk agrees with what it was on all other slots, and the new
slots and chunks are the places of the new nodes. -/
theorem graft {new : Sketch} (h : Ledger (c :: others) count (s :: tallies) sk) (c' : Chunk)
    (fresh : List Chunk) (added : List Address)
    (hg : Grafts ⟨c.id, slot⟩ q new sk sk') (hplace : new.place = ⟨c.id, slot⟩)
    (hid : c'.id = c.id)
    (hslots : ∀ i x, i ≠ slot → c.slots[i]? = some x → c'.slots[i]? = some x)
    (hfresh : fresh.map Chunk.id = (List.range new.jobs).map (count + ·))
    (hnodes : new.places.Perm (⟨c.id, slot⟩ :: added))
    (hplaces : (c'.places ++ fresh.flatMap Chunk.places).Perm (c.places ++ added))
    (hnew : new.Written (Kept (c' :: (fresh ++ others)))) :
    Ledger (c' :: (fresh ++ others)) (count + new.jobs) ((s + new.stats) :: tallies) sk' where
  ids := by
    rw [List.range_add, ← hfresh, List.map_cons, List.map_append, hid]
    refine .trans ?_ (h.ids.append_right _)
    rw [List.map_cons, List.cons_append]
    exact List.perm_append_comm.cons _
  places := by
    obtain ⟨rest, hold, hgraft⟩ := hg.places_perm
    rw [List.flatMap_cons, List.flatMap_append, ← List.append_assoc]
    have hrest : (⟨c.id, slot⟩ :: rest).Perm (c.places ++ others.flatMap Chunk.places) :=
      hold.symm.trans h.places
    calc sk'.places
      _ ~ new.places ++ rest := hgraft
      _ ~ ⟨c.id, slot⟩ :: added ++ rest := hnodes.append_right _
      _ ~ added ++ (⟨c.id, slot⟩ :: rest) := List.perm_middle.symm
      _ ~ added ++ (c.places ++ others.flatMap Chunk.places) := hrest.append_left _
      _ ~ added ++ c.places ++ others.flatMap Chunk.places := .of_eq (List.append_assoc ..).symm
      _ ~ c.places ++ added ++ others.flatMap Chunk.places := List.perm_append_comm.append_right _
      _ ~ _ := hplaces.symm.append_right _
  written := by
    refine hg.written hplace h.nodup_places ?_ hnew h.written
    -- all other nodes are where they were, in this chunk or in another one
    intro b _ hne x hx
    obtain ⟨d, hd, hda, hx⟩ := hx
    rcases List.mem_cons.1 hd with rfl | hd
    · refine ⟨c', List.mem_cons_self, hid.trans hda, hslots _ _ ?_ hx⟩
      rintro rfl
      exact hne (by rw [hda])
    · exact ⟨d, List.mem_cons_of_mem _ (List.mem_append_right _ hd), hda, hx⟩
  stats := by
    have hsum := h.stats
    rw [List.sum_cons] at hsum
    rw [List.sum_cons, hg.stats_eq, ← hsum]
    abel
  jobs := by
    rw [hg.jobs_eq, h.jobs]
    omega

theorem leaf (h : Ledger (c :: others) count (s :: tallies) sk) {r : Region} {reason : LeafReason}
    {items : List Item}
    (hg : Grafts ⟨c.id, slot⟩ q (.leaf ⟨c.id, slot⟩ r reason items) sk sk') :
    Ledger (c.filled slot ⟨r.extent.bounds, .leaf r.first r.last, r.depth⟩ :: others) count
      ((s + .leafTally reason r.depth r.size) :: tallies) sk' := by
  have hlt := lt_size_of_slots (h.slot_eq hg.mem_plots)
  refine h.graft _ [] [] hg rfl rfl ?_ rfl (.refl _) ?_ ?_
  · intro i x hne hx
    rw [slots_filled_of_ne hne.symm, hx]
  · rw [places_filled, List.flatMap_nil]
  · exact ⟨_, List.mem_cons_self, rfl, slots_filled_self hlt⟩

theorem halve (h : Ledger (c :: others) count (s :: tallies) sk) {q' : Plot}
    (hg : Grafts ⟨c.id, slot⟩ q (.bare ⟨c.id, slot⟩ q') sk sk') :
    Ledger (c :: others) count (s :: tallies) sk' := by
  have hslot := h.slot_eq hg.mem_plots
  have hgraft := h.graft c [] [] hg rfl rfl
    (fun _ _ _ hx => hx) rfl (.refl _) (.refl _) ⟨c, List.mem_cons_self, rfl, hslot⟩
  rw [stats_bare, add_zero] at hgraft
  exact hgraft

theorem here (h : Ledger (c :: others) count (s :: tallies) sk) {r : Region} {left right : Plot}
    (hg : Grafts ⟨c.id, slot⟩ q (.fork ⟨c.id, slot⟩ r false (.bare ⟨c.id, c.size⟩ left)
      (.bare ⟨c.id, c.size + 1⟩ right)) sk sk') :
    Ledger (c.grown.grown.filled slot ⟨r.extent.bounds, .interior c.size (.here (c.size + 1)),
      r.depth⟩ :: others) count ((s + .interiorTally) :: tallies) sk' := by
  have hlt := lt_size_of_slots (h.slot_eq hg.mem_plots)
  rw [← stats_fork_bare ⟨c.id, slot⟩ ⟨c.id, c.size⟩ ⟨c.id, c.size + 1⟩ r false left right]
  refine h.graft _ [] [⟨c.id, c.size⟩, ⟨c.id, c.size + 1⟩] hg rfl rfl ?_ rfl (.refl _) ?_ ?_
  · intro i x hne hx
    have hi := lt_size_of_slots hx
    rw [slots_filled_of_ne hne.symm, slots_grown (by rw [size_grown]; omega), slots_grown hi, hx]
  · rw [places_filled, places_grown, places_grown, List.flatMap_nil, List.append_nil,
      List.append_assoc, size_grown]
    exact .refl _
  · refine ⟨⟨_, List.mem_cons_self, rfl, ?_⟩,
      ⟨rfl, hlt, nofun, fun _ => ⟨rfl, Nat.lt_succ_of_lt hlt⟩⟩,
      ⟨_, List.mem_cons_self, rfl, ?_⟩, ⟨_, List.mem_cons_self, rfl, ?_⟩⟩
    · exact slots_filled_self (by rw [size_grown, size_grown]; omega)
    · rw [slots_filled_of_ne hlt.ne, slots_grown (by rw [size_grown]; omega), slots_grown_size]
    · have hlast := slots_grown_size c.grown
      rw [size_grown] at hlast
      rw [slots_filled_of_ne (Nat.lt_succ_of_lt hlt).ne]
      exact hlast

theorem apart (h : Ledger (c :: others) count (s :: tallies) sk) {r : Region} {left right : Plot}
    (hg : Grafts ⟨c.id, slot⟩ q (.fork ⟨c.id, slot⟩ r true (.bare ⟨c.id, c.size⟩ left)
      (.bare ⟨count, 0⟩ right)) sk sk') :
    Ledger (c.grown.filled slot ⟨r.extent.bounds, .interior c.size (.chunk count), r.depth⟩ ::
      blank count :: others) (count + 1) ((s + .interiorTally) :: tallies) sk' := by
  have hlt := lt_size_of_slots (h.slot_eq hg.mem_plots)
  rw [← stats_fork_bare ⟨c.id, slot⟩ ⟨c.id, c.size⟩ ⟨count, 0⟩ r true left right]
  refine h.graft _ [blank count] [⟨c.id, c.size⟩, ⟨count, 0⟩] hg rfl rfl ?_ rfl (.refl _) ?_ ?_
  · intro i x hne hx
    rw [slots_filled_of_ne hne.symm, slots_grown (lt_size_of_slots hx), hx]
  · rw [places_filled, places_grown, List.append_assoc]
    exact .refl _
  · refine ⟨⟨_, List.mem_cons_self, rfl, ?_⟩, ⟨rfl, hlt, fun _ => ⟨h.id_lt, rfl⟩, nofun⟩,
      ⟨_, List.mem_cons_self, rfl, ?_⟩, ⟨blank count, by simp, rfl, rfl⟩⟩
    · exact slots_filled_self (by rw [size_grown]; omega)
    · rw [slots_filled_of_ne hlt.ne, slots_grown_size]

end Ledger

end BoxTree

import BoxTree.Proofs.Machine.Ledger
import Mathlib.Data.List.ReduceOption
/-!
# Laying chunks end to end

A chunk begins in the merged array where the one before it ends, so that every place has an
**index**. Chunks that are whole are merged without a fault as long as their nodes can be numbered,
and every node is found at the index of its place, with its children named by the indices of theirs.
-/

namespace BoxTree

namespace Chunk

/-- Where a chunk begins in the merged array. -/
def startOf (chunks : List Chunk) (i : Nat) : Nat := ((chunks.take i).map size).sum

/-- The number of nodes of all chunks. -/
def total (chunks : List Chunk) : Nat := (chunks.map size).sum

/-- The index of a place in the merged array. -/
def index (chunks : List Chunk) (a : Address) : Nat := startOf chunks a.chunk + a.slot

/-- The place of a right child. -/
def target (id : Nat) : ChildRef → Address
  | .here slot => ⟨id, slot⟩
  | .chunk id => ⟨id, 0⟩

/-- A node in the merged array. -/
def moved (chunks : List Chunk) (id : Nat) (n : ChunkNode) : Node :=
  match n.kind with
  | .leaf first last => ⟨n.bounds, .leaf first last, n.depth⟩
  | .interior l r =>
    ⟨n.bounds, .interior (index chunks ⟨id, l⟩) (index chunks (target id r)), n.depth⟩

/-- Chunks that can be merged: numbered by their places, without empty slots, and with children
that are there. -/
structure Whole (chunks : List Chunk) : Prop where
  ids : chunks.map Chunk.id = List.range chunks.length
  filled : ∀ c ∈ chunks, none ∉ c.slots.toList
  left : ∀ c ∈ chunks, ∀ n, some n ∈ c.slots.toList → ∀ l r, n.kind = .interior l r →
    ⟨c.id, l⟩ ∈ chunks.flatMap places
  right : ∀ c ∈ chunks, ∀ n, some n ∈ c.slots.toList → ∀ l r, n.kind = .interior l r →
    target c.id r ∈ chunks.flatMap places

/-- The nodes of chunks that are whole. -/
def merged (chunks : List Chunk) : List Node :=
  chunks.flatMap fun c => c.slots.toList.reduceOption.map (moved chunks c.id)

variable {c : Chunk} {chunks : List Chunk} {a : Address} {i slot place : Nat}

/-- Steps over numbered slots that are all filled. -/
theorem mapM_zipIdx_eq_ok {α β ε : Type} {f : Option α × Nat → Except ε β} {g : α → β}
    {slots : List (Option α)} (hfilled : none ∉ slots)
    (hf : ∀ a k, some a ∈ slots → f (some a, k) = .ok (g a)) (k : Nat) :
    (slots.zipIdx k).mapM f = .ok (slots.reduceOption.map g) := by
  induction slots generalizing k with
  | nil => rfl
  | cons x rest ih =>
    rw [List.mem_cons, not_or] at hfilled
    cases x with
    | none => exact absurd rfl hfilled.1
    | some a =>
      rw [List.zipIdx_cons, List.mapM_cons, hf a k List.mem_cons_self, ok_bind,
        ih hfilled.2 (fun b k hb => hf b k (List.mem_cons_of_mem _ hb)),
        List.reduceOption_cons_of_some]
      rfl

/-- Slots that are all filled are their values. -/
theorem map_some_reduceOption {α : Type} {slots : List (Option α)} (hfilled : none ∉ slots) :
    slots.reduceOption.map some = slots := by
  induction slots with
  | nil => rfl
  | cons x rest ih =>
    rw [List.mem_cons, not_or] at hfilled
    cases x with
    | none => exact absurd rfl hfilled.1
    | some n => rw [List.reduceOption_cons_of_some, List.map_cons, ih hfilled.2]

/-! ## Indices -/

@[simp] theorem total_cons (c : Chunk) (chunks : List Chunk) :
    total (c :: chunks) = c.size + total chunks := List.sum_cons

theorem startOf_cons_succ (c : Chunk) (chunks : List Chunk) (i : Nat) :
    startOf (c :: chunks) (i + 1) = c.size + startOf chunks i := by
  rw [startOf, List.take_succ_cons, List.map_cons, List.sum_cons]
  rfl

/-- A chunk ends inside the merged array. -/
theorem startOf_add_size_le (h : chunks[i]? = some c) :
    startOf chunks i + c.size ≤ total chunks := by
  induction chunks generalizing i with
  | nil => cases h
  | cons d rest ih =>
    rw [total_cons]
    cases i with
    | zero =>
      cases h
      exact (Nat.zero_add c.size).symm ▸ Nat.le_add_right _ _
    | succ i =>
      rw [startOf_cons_succ]
      have := ih h
      omega

/-- What lies in a chunk lies in the merged array behind the start of the chunk. -/
theorem getElem?_flatMap {β : Type} {f : Chunk → List β}
    (hlen : ∀ c ∈ chunks, (f c).length = c.size)
    (h : chunks[i]? = some c) (hs : slot < c.size) :
    (chunks.flatMap f)[startOf chunks i + slot]? = (f c)[slot]? := by
  induction chunks generalizing i with
  | nil => cases h
  | cons d rest ih =>
    rw [List.forall_mem_cons] at hlen
    rw [List.flatMap_cons]
    cases i with
    | zero =>
      cases h
      have hstart : startOf (c :: rest) 0 = 0 := rfl
      rw [hstart, Nat.zero_add, List.getElem?_append_left (by rw [hlen.1]; exact hs)]
    | succ i =>
      rw [startOf_cons_succ, List.getElem?_append_right (by rw [hlen.1]; omega), hlen.1,
        ← ih hlen.2 h]
      congr 1
      omega

/-- Where chunks are numbered by their places. -/
theorem getElem?_of_mem (hids : chunks.map Chunk.id = List.range chunks.length) (h : c ∈ chunks) :
    chunks[c.id]? = some c := by
  obtain ⟨i, hi, rfl⟩ := List.getElem_of_mem h
  have hid : (chunks.map Chunk.id)[i]? = some i := by
    rw [hids, List.getElem?_range hi]
  rw [List.getElem?_map, List.getElem?_eq_getElem hi, Option.map_some, Option.some.injEq] at hid
  rw [hid, List.getElem?_eq_getElem hi]

/-- A place belongs to the chunk it names. -/
theorem exists_of_mem_places (hids : chunks.map Chunk.id = List.range chunks.length)
    (h : a ∈ chunks.flatMap places) : ∃ c, chunks[a.chunk]? = some c ∧ a.slot < c.size := by
  obtain ⟨c, hc, ha⟩ := List.mem_flatMap.1 h
  obtain ⟨hchunk, hslot⟩ := mem_places.1 ha
  exact ⟨c, by rw [hchunk]; exact getElem?_of_mem hids hc, hslot⟩

theorem index_lt (hids : chunks.map Chunk.id = List.range chunks.length)
    (h : a ∈ chunks.flatMap places) : index chunks a < total chunks := by
  obtain ⟨c, hc, hslot⟩ := exists_of_mem_places hids h
  have := startOf_add_size_le hc
  unfold index
  omega

/-- The indices of chunks whose numbers and indices begin somewhere. -/
theorem map_places (hids : chunks.map Chunk.id = List.range' place chunks.length) (base : Nat) :
    (chunks.flatMap places).map (fun a => base + startOf chunks (a.chunk - place) + a.slot) =
      List.range' base (total chunks) := by
  induction chunks generalizing place base with
  | nil => rfl
  | cons c rest ih =>
    rw [List.map_cons, List.length_cons, List.range'_succ, List.cons.injEq] at hids
    obtain ⟨rfl, hrest⟩ := hids
    have hfirst : c.places.map (fun a => base + startOf (c :: rest) (a.chunk - c.id) + a.slot) =
        List.range' base c.size := by
      rw [places, List.map_map, List.range'_eq_map_range]
      refine List.map_congr_left fun slot _ => ?_
      have hstart : startOf (c :: rest) (c.id - c.id) = 0 := by rw [Nat.sub_self]; rfl
      rw [Function.comp_apply, hstart, Nat.add_zero]
    -- the numbers of all other chunks are larger, so that they begin behind this one
    have hothers : (rest.flatMap places).map
        (fun a => base + startOf (c :: rest) (a.chunk - c.id) + a.slot) =
        List.range' (base + c.size) (total rest) := by
      rw [← ih hrest]
      refine List.map_congr_left fun a ha => ?_
      obtain ⟨d, hd, had⟩ := List.mem_flatMap.1 ha
      have hmem : a.chunk ∈ List.range' (c.id + 1) rest.length := by
        rw [← hrest, (mem_places.1 had).1]
        exact List.mem_map_of_mem hd
      have hle := (List.mem_range'_1.1 hmem).1
      have hsucc : a.chunk - c.id = a.chunk - (c.id + 1) + 1 := by omega
      rw [hsucc, startOf_cons_succ]
      omega
    rw [List.flatMap_cons, List.map_append, hfirst, hothers, total_cons, List.range'_append_1]

/-- **The places of all chunks have all indices**, in their order. -/
theorem map_index_places (hids : chunks.map Chunk.id = List.range chunks.length) :
    (chunks.flatMap places).map (index chunks) = List.range (total chunks) := by
  rw [List.range_eq_range'] at hids
  rw [List.range_eq_range', ← map_places hids 0]
  refine List.map_congr_left fun a _ => ?_
  rw [Nat.zero_add, Nat.sub_zero, index]

/-! ## Offsets -/

theorem offsets_eq (hids : chunks.map Chunk.id = List.range' place chunks.length) (sum : Nat) :
    offsets place sum chunks =
      .ok ((List.range chunks.length).map fun i => sum + startOf chunks i, sum + total chunks) := by
  induction chunks generalizing place sum with
  | nil => rfl
  | cons c rest ih =>
    rw [List.map_cons, List.length_cons, List.range'_succ, List.cons.injEq] at hids
    obtain ⟨rfl, hrest⟩ := hids
    rw [offsets, if_neg (not_not.2 rfl), ih hrest, ok_bind, List.length_cons,
      List.range_succ_eq_map, List.map_cons, List.map_map]
    have hstart : (fun i => sum + startOf (c :: rest) i) ∘ Nat.succ =
        fun i => sum + c.size + startOf rest i := by
      funext i
      rw [Function.comp_apply, startOf_cons_succ, Nat.add_assoc]
    rw [hstart, total_cons, ← Nat.add_assoc]
    rfl

/-! ## Merging -/

/-- The starts of the chunks, as they are looked up. -/
theorem getElem?_starts (hc : chunks[i]? = some c) :
    ((List.range chunks.length).map (startOf chunks)).toArray[i]? = some (startOf chunks i) := by
  have hi := (List.getElem?_eq_some_iff.1 hc).1
  rw [List.getElem?_toArray, List.getElem?_map, List.getElem?_range hi, Option.map_some]

/-- A slot that is there can be moved. -/
theorem shift_eq (hids : chunks.map Chunk.id = List.range chunks.length)
    (htotal : total chunks ≤ limit32) (ha : a ∈ chunks.flatMap places) :
    shift a.slot (startOf chunks a.chunk) = .ok (index chunks a) := by
  have hlt := index_lt hids ha
  unfold index at hlt
  rw [shift, addWithin, if_pos (by omega), index, Nat.add_comm]

/-- **Chunks that are numbered by their places** are moved one by one, unless their nodes cannot be
numbered. -/
theorem merge_eq (hids : chunks.map Chunk.id = List.range chunks.length) :
    merge chunks =
      if limit32 < total chunks then .error (.error (.tooManyObjects (total chunks)))
      else (chunks.mapM fun c => rebase ((List.range chunks.length).map (startOf chunks)).toArray c
        (startOf chunks c.id)).map List.flatten := by
  have hoffsets := offsets_eq (List.range_eq_range' ▸ hids) 0
  simp only [Nat.zero_add] at hoffsets
  -- every chunk is paired with its start
  have hzip : chunks.zip ((List.range chunks.length).map (startOf chunks)) =
      chunks.map fun c => (c, startOf chunks c.id) := by
    have hstarts : (List.range chunks.length).map (startOf chunks) =
        chunks.map fun c => startOf chunks c.id := by
      rw [← hids, List.map_map]
      rfl
    rw [hstarts, List.map_prod_left_eq_zip]
  simp only [merge, hoffsets]
  rw [pure_bind]
  by_cases htotal : limit32 < total chunks
  · rw [if_pos htotal, if_pos htotal]
    rfl
  · rw [if_neg htotal, if_neg htotal, hzip]
    change ((chunks.map fun c => (c, startOf chunks c.id)).mapM _ >>= _) = _
    rw [List.mapM_map]
    rfl

variable (h : Whole chunks)
include h

theorem Whole.rebaseNode_eq (htotal : total chunks ≤ limit32) (hc : c ∈ chunks) {n : ChunkNode}
    (hn : some n ∈ c.slots.toList) :
    rebaseNode ((List.range chunks.length).map (startOf chunks)).toArray (startOf chunks c.id) n =
      .ok (moved chunks c.id n) := by
  unfold rebaseNode moved
  cases hkind : n.kind with
  | leaf first last => rfl
  | interior l r =>
    have hleft := shift_eq h.ids htotal (h.left c hc n hn l r hkind)
    have hright := h.right c hc n hn l r hkind
    have hresolve : resolve ((List.range chunks.length).map (startOf chunks)).toArray
        (startOf chunks c.id) r = .ok (index chunks (target c.id r)) := by
      -- the root of another chunk is its first slot, which is found by the offset alone
      cases r with
      | here slot => exact shift_eq h.ids htotal hright
      | chunk id =>
        obtain ⟨d, hd, -⟩ := exists_of_mem_places h.ids hright
        change chunks[id]? = some d at hd
        rw [resolve, getElem?_starts hd]
        rfl
    simp only [hresolve, hleft, ok_bind]
    rfl

theorem Whole.rebase_eq (htotal : total chunks ≤ limit32) (hc : c ∈ chunks) :
    rebase ((List.range chunks.length).map (startOf chunks)).toArray c (startOf chunks c.id) =
      .ok (c.slots.toList.reduceOption.map (moved chunks c.id)) := by
  refine mapM_zipIdx_eq_ok (h.filled c hc) (fun n k hn => ?_) 0
  exact h.rebaseNode_eq htotal hc hn

/-- **Whole chunks are merged** as long as there are numbers for all nodes. -/
theorem Whole.merge_cases :
    (limit32 < total chunks ∧ merge chunks = .error (.error (.tooManyObjects (total chunks)))) ∨
      (total chunks ≤ limit32 ∧ merge chunks = .ok (merged chunks)) := by
  rw [merge_eq h.ids]
  by_cases htotal : limit32 < total chunks
  · exact .inl ⟨htotal, if_pos htotal⟩
  · have hle : total chunks ≤ limit32 := Nat.le_of_not_lt htotal
    rw [if_neg htotal, mapM_eq_ok fun c hc => h.rebase_eq hle hc]
    exact .inr ⟨hle, rfl⟩

theorem Whole.length_nodes (hc : c ∈ chunks) :
    (c.slots.toList.reduceOption.map (moved chunks c.id)).length = c.size := by
  have hlen := congrArg List.length (map_some_reduceOption (h.filled c hc))
  rw [List.length_map] at hlen
  rw [List.length_map, hlen]
  rfl

theorem Whole.length_merged : (merged chunks).length = total chunks := by
  rw [merged, List.length_flatMap, total]
  exact congrArg List.sum (List.map_congr_left fun c hc => h.length_nodes hc)

/-- **A node is found at the index of its place.** -/
theorem Whole.getElem?_merged {n : ChunkNode} (hn : Kept chunks a (some n)) :
    (merged chunks)[index chunks a]? = some (moved chunks a.chunk n) := by
  obtain ⟨c, hc, hid, hslot⟩ := hn
  have hget := getElem?_of_mem h.ids hc
  rw [hid] at hget
  have hnode : c.slots.toList.reduceOption[a.slot]? = some n := by
    have hsome := congrArg (·[a.slot]?) (map_some_reduceOption (h.filled c hc))
    simp only [List.getElem?_map, Array.getElem?_toList, hslot] at hsome
    obtain ⟨m, hm, heq⟩ := Option.map_eq_some_iff.1 hsome
    rw [hm, heq]
  rw [index, merged, getElem?_flatMap (fun c hc => h.length_nodes hc) hget (lt_size_of_slots hslot),
    List.getElem?_map, hnode, hid]
  rfl

end Chunk

/-! ## Finished sketches -/

open Chunk

variable {sk : Sketch} {chunks : List Chunk} {count : Nat} {tallies : List Statistics}

namespace Sketch

theorem place_mem_places (sk : Sketch) : sk.place ∈ sk.places := by
  cases sk <;> exact List.mem_cons_self

namespace Links

variable {place left right : Address} {apart : Bool} (h : Links place apart left right)
include h

/-- The children of a node are found by what it names. -/
theorem left_eq : (⟨place.chunk, left.slot⟩ : Address) = left := by
  rw [← h.left_chunk]

theorem right_eq : target place.chunk (childRef apart right) = right := by
  cases apart with
  | true =>
    rw [childRef, if_pos rfl, target, ← (h.of_apart rfl).2]
  | false =>
    rw [childRef, if_neg Bool.false_ne_true, target, ← (h.of_here rfl).1]

end Links

/-- Every node of a finished sketch is written, and so are its children. -/
theorem Written.node {slot : Address → Option ChunkNode → Prop} (h : sk.Written slot)
    (hdone : sk.plots = []) {a : Address} (ha : a ∈ sk.places) :
    ∃ n, slot a (some n) ∧ ∀ l r, n.kind = .interior l r →
      ⟨a.chunk, l⟩ ∈ sk.places ∧ target a.chunk r ∈ sk.places := by
  induction sk with
  | bare b q => cases hdone
  | leaf b r reason items =>
    cases List.mem_singleton.1 ha
    exact ⟨_, h, nofun⟩
  | fork b r apart left right ihl ihr =>
    obtain ⟨hroot, hlinks, hl, hr⟩ := h
    obtain ⟨hdl, hdr⟩ := List.append_eq_nil_iff.1 hdone
    rw [places, List.mem_cons, List.mem_append] at ha
    rcases ha with rfl | ha | ha
    · refine ⟨_, hroot, fun l r hkind => ?_⟩
      obtain ⟨rfl, rfl⟩ := ChunkKind.interior.inj hkind
      rw [hlinks.left_eq, hlinks.right_eq, places]
      exact ⟨List.mem_cons_of_mem _ (List.mem_append_left _ left.place_mem_places),
        List.mem_cons_of_mem _ (List.mem_append_right _ right.place_mem_places)⟩
    · obtain ⟨n, hn, hchildren⟩ := ihl hl hdl ha
      refine ⟨n, hn, fun l r hkind => ?_⟩
      obtain ⟨hleft, hright⟩ := hchildren l r hkind
      rw [places]
      exact ⟨List.mem_cons_of_mem _ (List.mem_append_left _ hleft),
        List.mem_cons_of_mem _ (List.mem_append_left _ hright)⟩
    · obtain ⟨n, hn, hchildren⟩ := ihr hr hdr ha
      refine ⟨n, hn, fun l r hkind => ?_⟩
      obtain ⟨hleft, hright⟩ := hchildren l r hkind
      rw [places]
      exact ⟨List.mem_cons_of_mem _ (List.mem_append_right _ hleft),
        List.mem_cons_of_mem _ (List.mem_append_right _ hright)⟩

end Sketch

/-- **The chunks of a finished sketch are whole.** -/
theorem Ledger.whole (h : Ledger chunks count tallies sk) (hdone : sk.plots = [])
    (hids : chunks.map Chunk.id = List.range count) : Whole chunks := by
  have hlen : chunks.length = count := by
    have := congrArg List.length hids
    rwa [List.length_map, List.length_range] at this
  have hids' : chunks.map Chunk.id = List.range chunks.length := by rw [hlen, hids]
  -- what is in a slot is a node of the sketch
  have hslot : ∀ c ∈ chunks, ∀ x ∈ c.slots.toList, ∃ n, x = some n ∧
      ∀ l r, n.kind = .interior l r → ⟨c.id, l⟩ ∈ chunks.flatMap Chunk.places ∧
        target c.id r ∈ chunks.flatMap Chunk.places := by
    intro c hc x hx
    obtain ⟨i, hi, rfl⟩ := List.getElem_of_mem hx
    have hplace : (⟨c.id, i⟩ : Address) ∈ chunks.flatMap Chunk.places :=
      List.mem_flatMap.2 ⟨c, hc, mem_places.2 ⟨rfl, hi⟩⟩
    obtain ⟨n, ⟨d, hd, hid, hn⟩, hchildren⟩ := h.written.node hdone (h.places.mem_iff.2 hplace)
    have hsame := getElem?_of_mem hids' hd
    rw [hid] at hsame
    cases (getElem?_of_mem hids' hc).symm.trans hsame
    refine ⟨n, ?_, fun l r hkind => ?_⟩
    · rw [← Array.getElem?_toList, List.getElem?_eq_getElem hi] at hn
      exact Option.some.inj hn
    · obtain ⟨hleft, hright⟩ := hchildren l r hkind
      exact ⟨h.places.mem_iff.1 hleft, h.places.mem_iff.1 hright⟩
  refine ⟨hids', fun c hc hnone => ?_, fun c hc n hn l r hkind => ?_, fun c hc n hn l r hkind => ?_⟩
  · obtain ⟨n, hn, -⟩ := hslot c hc none hnone
    cases hn
  · obtain ⟨m, hm, hchildren⟩ := hslot c hc _ hn
    cases hm
    exact (hchildren l r hkind).1
  · obtain ⟨m, hm, hchildren⟩ := hslot c hc _ hn
    cases hm
    exact (hchildren l r hkind).2

end BoxTree

import BoxTree.Proofs.Partition.Summary
import BoxTree.Proofs.Results
/-!
# Stable partitions

Placing items one after the other on their side of the destination is the stable partition, and
so is placing pieces of them independently: what is written is determined by the counts, and
the parts of the destination do not overlap. `inStep_eq` and `inPieces_eq` say it for the two
partitions that copy.
-/

namespace BoxTree

section Overwrite

variable {α : Type} {target : Array α} {first : Nat} {vs ws : List α}

/-- An entry that is not written over can be set before or after. -/
theorem overwrite_setIfInBounds {j : Nat} (v : α) (h : j < first ∨ first + vs.length ≤ j) :
    overwrite (target.setIfInBounds j v) first vs =
      (overwrite target first vs).setIfInBounds j v := by
  apply Array.ext_getElem?
  intro i
  rw [getElem?_overwrite, Array.getElem?_setIfInBounds, Array.getElem?_setIfInBounds,
    Array.size_setIfInBounds, size_overwrite, getElem?_overwrite]
  by_cases hij : j = i
  · subst hij
    rcases h with h | h
    · simp [h]
    · have hnone : vs[j - first]? = none := List.getElem?_eq_none (by omega)
      rw [if_neg (by omega), if_pos rfl, if_pos rfl, hnone, Option.none_or]
      split <;> rfl
  · rw [if_neg hij, if_neg hij]

/-- Writing two lists one behind the other is writing their concatenation. -/
theorem overwrite_append :
    overwrite (overwrite target first vs) (first + vs.length) ws =
      overwrite target first (vs ++ ws) := by
  induction vs generalizing target first with
  | nil => rfl
  | cons v vs ih =>
    rw [overwrite, List.cons_append, overwrite, ← ih, List.length_cons]
    congr 1
    omega

/-- Lists written to parts that do not overlap can be written in either order. -/
theorem overwrite_comm {behind : Nat} (h : first + vs.length ≤ behind) :
    overwrite (overwrite target behind ws) first vs =
      overwrite (overwrite target first vs) behind ws := by
  induction ws generalizing target behind with
  | nil => rfl
  | cons w ws ih =>
    rw [overwrite, ih (by omega), overwrite_setIfInBounds w (.inr h), overwrite]

/-- A list as long as the array replaces it. -/
theorem overwrite_eq_toArray (h : vs.length = target.size) :
    overwrite target 0 vs = vs.toArray := by
  apply Array.ext_getElem?
  intro i
  have hlist : vs.toArray[i]? = vs[i]? := by simp
  rw [getElem?_overwrite, if_neg (Nat.not_lt_zero i), hlist, Nat.sub_zero]
  split
  · rename_i hi
    rw [List.getElem?_eq_getElem (h ▸ hi), Option.some_or]
  · rename_i hi
    rw [List.getElem?_eq_none (by omega)]

end Overwrite

/-- The size of pieces is computed from a sum within the limit of counts. -/
theorem subrangeSize_ok_iff {count tasks : Nat} : (∃ size, subrangeSize count tasks = .ok size) ↔
    count + tasks ≤ limit64 := by
  unfold subrangeSize addWithin
  split
  · rename_i h
    exact ⟨fun _ => h, fun _ => ⟨_, rfl⟩⟩
  · rename_i h
    refine ⟨fun hok => ?_, fun hle => absurd hle h⟩
    obtain ⟨size, hsize⟩ := hok
    cases hsize

namespace Partition

variable {a : Axis} {value : Scalar}

/-- The two sides written one behind the other are the whole destination. -/
theorem overwrite_stable {src : List Item} {dst : Array Item} (h : src.length = dst.size) :
    overwrite (overwrite dst 0 (lefts a value src)) (lefts a value src).length
      (rights a value src) = (stable a value src).toArray := by
  have happ : overwrite (overwrite dst 0 (lefts a value src)) (0 + (lefts a value src).length)
      (rights a value src) = overwrite dst 0 (stable a value src) := overwrite_append
  rw [Nat.zero_add] at happ
  rw [happ, overwrite_eq_toArray (by rw [length_stable, h])]

/-- **Placing fills both parts of the destination in order**, when their sizes are the counts
of the two sides and the parts do not overlap. -/
theorem placeFrom_eq {s : Slots} {items : List Item} {l r : Nat} {dst : Array Item}
    (hl : l + (lefts a value items).length = s.leftCount)
    (hr : r + (rights a value items).length = s.rightCount) (hd : s.left + s.leftCount ≤ s.right) :
    placeFrom a value s items l r dst =
      .ok (overwrite (overwrite dst (s.left + l) (lefts a value items)) (s.right + r)
        (rights a value items)) := by
  induction items generalizing l r dst with
  | nil =>
    have hl' : l = s.leftCount := hl
    have hr' : r = s.rightCount := hr
    rw [placeFrom, if_pos (by simp [hl', hr'])]
    rfl
  | cons o rest ih =>
    rw [placeFrom]
    by_cases h : o.goesLeft a value = true
    · rw [lefts_cons_of_goesLeft h] at hl ⊢
      rw [rights_cons_of_goesLeft h] at hr ⊢
      rw [List.length_cons] at hl
      rw [if_pos h, if_pos (by omega), ih (by omega) hr, overwrite, Nat.add_assoc]
    · rw [lefts_cons_of_not_goesLeft h] at hl ⊢
      rw [rights_cons_of_not_goesLeft h] at hr ⊢
      rw [List.length_cons] at hr
      rw [if_neg h, if_pos (by omega), ih hl (by omega), overwrite, Nat.add_assoc]
      -- the item just placed lies behind all that is still to be written on the left
      rw [overwrite_setIfInBounds o (.inr (by omega))]

/-- **A placed copy is the stable partition.** -/
theorem place_eq {leftCount : Nat} {src : List Item} {dst : Array Item}
    (hl : (lefts a value src).length = leftCount) (hs : src.length = dst.size) :
    place a value leftCount src dst = .ok (stable a value src).toArray := by
  have hsum := length_lefts_add_length_rights a value src
  rw [place, if_pos (by omega), placeFrom_eq (by simpa using hl) (by simp; omega) (by simp)]
  simp only [Nat.add_zero]
  rw [← hl, overwrite_stable hs]

/-- **A partition in step** copies each of the three arrays stably, as long as every array has as
many items on the left as the one that decides. -/
theorem inStep_eq {src : PerAxis (List Item)} {dst : PerAxis (Array Item)}
    (hl : ∀ b, (lefts a value (src.get b)).length = (lefts a value (src.get a)).length)
    (hs : ∀ b, (src.get b).length = (dst.get b).size) :
    inStep a value src dst =
      .ok (src.map fun items => (stable a value items).toArray,
        Halves.count a value (src.get a)) := by
  have hcount : (Halves.count a value (src.get a)).left.count =
      (lefts a value (src.get a)).length := by
    rw [count_eq]
    rfl
  have hx : place a value _ src.x dst.x = _ := place_eq (hl .x) (hs .x)
  have hy : place a value _ src.y dst.y = _ := place_eq (hl .y) (hs .y)
  have hz : place a value _ src.z dst.z = _ := place_eq (hl .z) (hs .z)
  simp only [inStep, hcount]
  rw [hx, hy, hz]
  rfl

/-! ## In pieces -/

/-- The placements of pieces whose parts follow one another from two places on. -/
def inRow (a : Axis) (value : Scalar) : (left right : Nat) → List (List Item) → List Placement
  | _, _, [] => []
  | left, right, items :: rest =>
    ⟨items, left, (lefts a value items).length, right, (rights a value items).length⟩ ::
      inRow a value (left + (lefts a value items).length)
        (right + (rights a value items).length) rest

/-- **Every piece gets its part**, as long as both sides have room for all that is counted. -/
theorem placements_eq {pieces : List (List Item)} {leftEnd rightEnd l r : Nat}
    (hl : l + (lefts a value pieces.flatten).length ≤ leftEnd)
    (hr : r + (rights a value pieces.flatten).length ≤ rightEnd) :
    placements leftEnd rightEnd l r (pieces.map fun p => (p, Halves.count a value p)) =
      .ok (inRow a value l r pieces) := by
  induction pieces generalizing l r with
  | nil => rfl
  | cons p rest ih =>
    have hcount : Halves.count a value p =
        ⟨.ofItems (lefts a value p), .ofItems (rights a value p)⟩ := count_eq a value p
    rw [List.flatten_cons, lefts_append, List.length_append] at hl
    rw [List.flatten_cons, rights_append, List.length_append] at hr
    have hfits : l + (lefts a value p).length ≤ leftEnd ∧
        r + (rights a value p).length ≤ rightEnd := by omega
    rw [List.map_cons, placements, hcount]
    simp only [Half.ofItems, hfits, decide_true, Bool.and_true, if_true]
    rw [ih (by omega) (by omega)]
    rfl

/-- Placing counted pieces one after the other is placing what they are pieces of. -/
theorem foldlM_run_inRow {pieces : List (List Item)} {l r : Nat} {dst : Array Item}
    (h : l + (lefts a value pieces.flatten).length ≤ r) :
    (inRow a value l r pieces).foldlM (Placement.run a value) dst =
      .ok (overwrite (overwrite dst l (lefts a value pieces.flatten)) r
        (rights a value pieces.flatten)) := by
  induction pieces generalizing l r dst with
  | nil => rfl
  | cons p rest ih =>
    rw [List.flatten_cons, lefts_append, List.length_append] at h
    rw [inRow, List.foldlM_cons, Placement.run,
      placeFrom_eq (by simp) (by simp) (by simp; omega), List.flatten_cons, lefts_append,
      rights_append]
    change (inRow a value _ _ rest).foldlM (Placement.run a value) _ = _
    rw [ih (by omega)]
    simp only [Nat.add_zero]
    -- the left part of the rest may as well be written before the right part of this piece
    have hswap : overwrite (overwrite (overwrite dst l (lefts a value p)) r (rights a value p))
          (l + (lefts a value p).length) (lefts a value rest.flatten) =
        overwrite (overwrite (overwrite dst l (lefts a value p)) (l + (lefts a value p).length)
          (lefts a value rest.flatten)) r (rights a value p) := overwrite_comm (by omega)
    rw [hswap, overwrite_append, overwrite_append]

/-- The size of the pieces is never zero. -/
theorem pos_of_subrangeSize {count tasks size : Nat} (h : subrangeSize count tasks = .ok size) :
    0 < size := by
  unfold subrangeSize addWithin at h
  split at h
  · cases h
    exact Nat.lt_of_lt_of_le Nat.one_pos (Nat.le_max_right _ _)
  · cases h

/-- The placements lie in a row from the start of either side, and the summaries are put together
from those of the pieces. -/
theorem allot_eq {tasks size room : Nat} {src : List Item}
    (hsize : subrangeSize src.length (max tasks 1) = .ok size) (hs : src.length = room) :
    allot a value tasks src room = .ok (inRow a value 0 (lefts a value src).length
      (subranges size src), ((subranges size src).map (Halves.count a value)).foldl
        Halves.union .empty) := by
  have hflat := flatten_subranges (pos_of_subrangeSize hsize) src
  have hsum := length_lefts_add_length_rights a value src
  have hsnd : ((subranges size src).map fun p => (p, Halves.count a value p)).map Prod.snd =
      (subranges size src).map (Halves.count a value) := by
    rw [List.map_map]
    rfl
  obtain ⟨hleft, -⟩ := sides_foldl_union a value (subranges size src)
  have hcount := hleft.count
  rw [hflat] at hcount
  simp only [allot]
  rw [if_neg (by simpa using hs), hsize, ok_bind, hsnd, hcount, if_neg (by omega),
    placements_eq (by rw [hflat]; omega) (by rw [hflat]; omega)]
  rfl

/-- **A partition in pieces** is the stable partition; its summaries are put together from those
of the pieces. -/
theorem inPieces_eq {tasks size : Nat} {src : List Item} {dst : Array Item}
    (hsize : subrangeSize src.length (max tasks 1) = .ok size) (hs : src.length = dst.size) :
    inPieces a value tasks src dst = .ok ((stable a value src).toArray,
      ((subranges size src).map (Halves.count a value)).foldl Halves.union .empty) := by
  have hflat := flatten_subranges (pos_of_subrangeSize hsize) src
  have hrun := @foldlM_run_inRow a value (subranges size src) 0 (lefts a value src).length dst
    (by rw [hflat, Nat.zero_add])
  rw [hflat, overwrite_stable hs] at hrun
  simp only [inPieces, allot_eq hsize hs, ok_bind, hrun]
  rfl

end Partition

end BoxTree

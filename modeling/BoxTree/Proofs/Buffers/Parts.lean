import BoxTree.Buffers
import BoxTree.Proofs.Partition.Stable
/-!
# Parts of the object buffers

What a build sees of the buffers are the **parts** of its ranges. This file says what reading and
writing do to parts, for buffers whose arrays are all there and as long as the build has objects:
a range inside the arrays can always be read and written, and a write shows in no part that does
not meet it.
-/

namespace BoxTree

namespace Buffers

/-- The arrays of a side, whether or not the side may be asked for. -/
def arrays (b : Buffers) : Side → Array (Array Item)
  | .front => b.front
  | .back => b.back

/-- The items of a range in an array of a side. -/
def part (b : Buffers) (s : Side) (array first last : Nat) : List Item :=
  (((b.arrays s)[array]?.getD #[]).extract first last).toList

/-- Buffers of a number of arrays on either side, the back one only where there is a second
buffer, all of one length. -/
structure Fits (b : Buffers) (width n : Nat) (back : Bool) : Prop where
  pos : 0 < width
  front : b.front.size = width
  back : b.back.size = if back then width else 0
  sizes : ∀ s, ∀ a ∈ b.arrays s, a.size = n

/-- Nothing outside a range differs between two buffers. -/
def Keeps (first last : Nat) (b b' : Buffers) : Prop :=
  ∀ s array x y, y ≤ first ∨ last ≤ x → b'.part s array x y = b.part s array x y

variable {b b' : Buffers} {s s' : Side} {array array' width n first mid last x y : Nat}
  {back : Bool}

/-! ## Keeping what is outside a range -/

theorem Keeps.refl (first last : Nat) (b : Buffers) : Keeps first last b b := fun _ _ _ _ _ => rfl

theorem Keeps.trans {b'' : Buffers} (h : Keeps first last b b') (h' : Keeps first last b' b'') :
    Keeps first last b b'' :=
  fun s array x y hout => (h' s array x y hout).trans (h s array x y hout)

/-! ## Parts -/

theorem part_eq_drop_take (b : Buffers) (s : Side) (array first last : Nat) :
    b.part s array first last =
      (((b.arrays s)[array]?.getD #[]).toList.drop first).take (last - first) := by
  rw [part, Array.toList_extract, List.extract_eq_take_drop]

/-- The front of a part is a part. -/
theorem part_take (hx : first ≤ mid) (hy : mid ≤ last) :
    (b.part s array first last).take (mid - first) = b.part s array first mid := by
  have hmin : min (mid - first) (last - first) = mid - first := by omega
  rw [part_eq_drop_take, part_eq_drop_take, List.take_take, hmin]

/-- What remains of a part without its front is a part. -/
theorem part_drop (hx : first ≤ mid) (hy : mid ≤ last) :
    (b.part s array first last).drop (mid - first) = b.part s array mid last := by
  have hlen : last - first - (mid - first) = last - mid := by omega
  have hdrop : first + (mid - first) = mid := by omega
  rw [part_eq_drop_take, part_eq_drop_take, List.drop_take, List.drop_drop, hlen, hdrop]

namespace Fits

variable (hf : b.Fits width n back)
include hf

/-- A side that may be asked for has all its arrays. -/
theorem size_arrays (hs : s = .back → back = true) : (b.arrays s).size = width := by
  cases s with
  | front => exact hf.front
  | back => exact hf.back.trans (by rw [if_pos (hs rfl)])

theorem hasBack_eq : b.hasBack = back := by
  have hback := hf.back
  have hpos := hf.pos
  cases back with
  | true =>
    have : b.back.size ≠ 0 := by rw [hback, if_pos rfl]; omega
    simpa [hasBack] using this
  | false => simpa [hasBack] using hback

/-- Every array of a side that may be asked for is as long as the build has objects. -/
theorem getElem?_arrays (hs : s = .back → back = true) (ha : array < width) :
    ∃ items : Array Item, (b.arrays s)[array]? = some items ∧ items.size = n := by
  have hlt : array < (b.arrays s).size := by rw [hf.size_arrays hs]; exact ha
  exact ⟨(b.arrays s)[array], Array.getElem?_eq_getElem hlt, hf.sizes s _ (Array.getElem_mem hlt)⟩

theorem length_part (hs : s = .back → back = true) (ha : array < width) (hl : last ≤ n) :
    (b.part s array first last).length = last - first := by
  obtain ⟨items, hget, hsize⟩ := hf.getElem?_arrays hs ha
  rw [part, hget, Option.getD_some, Array.length_toList, Array.size_extract, hsize]
  omega

theorem side_eq (hs : s = .back → back = true) : b.side s = .ok (b.arrays s) := by
  cases s with
  | front => rfl
  | back => rw [side, if_pos (hf.hasBack_eq.trans (hs rfl))]; rfl

/-- **A range inside the arrays can be read.** -/
theorem view_eq (hs : s = .back → back = true) (ha : array < width) (hle : first ≤ last)
    (hl : last ≤ n) : b.view s array first last = .ok (b.part s array first last).toArray := by
  obtain ⟨items, hget, hsize⟩ := hf.getElem?_arrays hs ha
  have hrange : checkRange items first last = .ok () := by
    rw [checkRange, if_pos (by simpa using ⟨hle, hsize ▸ hl⟩)]
  rw [view, hf.side_eq hs, ok_bind, arrayAt, hget, ok_bind, hrange, ok_bind, part, hget,
    Option.getD_some, Array.toArray_toList]
  rfl

end Fits

/-! ## Writing -/

/-- The buffers with the items of a range replaced, when that is possible. -/
def written (b : Buffers) (s : Side) (array first : Nat) (items : List Item) : Buffers :=
  match s with
  | .front => ⟨b.front.modify array fun old => overwrite old first items, b.back⟩
  | .back => ⟨b.front, b.back.modify array fun old => overwrite old first items⟩

variable {items : List Item}

theorem arrays_written_self (b : Buffers) (s : Side) (array first : Nat) (items : List Item) :
    (b.written s array first items).arrays s =
      (b.arrays s).modify array fun old => overwrite old first items := by
  cases s <;> rfl

theorem arrays_written_of_ne (h : s' ≠ s) :
    (b.written s array first items).arrays s' = b.arrays s' := by
  cases s <;> cases s' <;> first | rfl | exact absurd rfl h

/-- **A range inside the arrays can be written.** -/
theorem Fits.put_eq (hf : b.Fits width n back) (hs : s = .back → back = true) (ha : array < width)
    (hl : first + items.length ≤ n) :
    b.put s array first items = .ok (b.written s array first items) := by
  obtain ⟨old, hget, hsize⟩ := hf.getElem?_arrays hs ha
  have hrange : checkRange old first (first + items.length) = .ok () := by
    rw [checkRange, if_pos (by simpa using hsize ▸ hl)]
  rw [put, hf.side_eq hs, ok_bind, arrayAt, hget, ok_bind, hrange, ok_bind]
  cases s <;> rfl

theorem Fits.written (hf : b.Fits width n back) : (b.written s array first items).Fits width n back
    where
  pos := hf.pos
  front := by
    have := hf.front
    cases s <;> simpa [Buffers.written] using this
  back := by
    have := hf.back
    cases s <;> simpa [Buffers.written] using this
  sizes s' a hmem := by
    by_cases hs : s' = s
    · subst hs
      rw [arrays_written_self] at hmem
      obtain ⟨i, hi, rfl⟩ := Array.getElem_of_mem hmem
      rw [Array.size_modify] at hi
      rw [Array.getElem_modify]
      have hold := hf.sizes s' _ (Array.getElem_mem hi)
      split
      · rw [size_overwrite, hold]
      · exact hold
    · rw [arrays_written_of_ne hs] at hmem
      exact hf.sizes s' a hmem

/-- A write to one array shows in no other. -/
theorem part_written_of_ne (h : s' ≠ s ∨ array' ≠ array) :
    (b.written s array first items).part s' array' x y = b.part s' array' x y := by
  rw [part, part]
  by_cases hs : s' = s
  · subst hs
    have ha : array' ≠ array := h.resolve_left (fun hne => hne rfl)
    rw [arrays_written_self, Array.getElem?_modify, if_neg ha.symm]
  · rw [arrays_written_of_ne hs]

/-- **A write to a range shows in no part beside it.** -/
theorem part_written_of_disjoint (h : y ≤ first ∨ first + items.length ≤ x) :
    (b.written s array first items).part s' array' x y = b.part s' array' x y := by
  by_cases hne : s' ≠ s ∨ array' ≠ array
  · exact part_written_of_ne hne
  · have hs : s' = s := Decidable.byContradiction fun hs => hne (.inl hs)
    have ha : array' = array := Decidable.byContradiction fun ha => hne (.inr ha)
    subst hs ha
    rw [part, part, arrays_written_self, Array.getElem?_modify, if_pos rfl]
    cases hget : (b.arrays s')[array']? with
    | none => rfl
    | some old =>
      simp only [Option.map_some, Option.getD_some]
      congr 1
      -- position by position: what is asked for lies before the items that were written or behind
      apply Array.ext_getElem?
      intro i
      rw [Array.getElem?_extract, Array.getElem?_extract, size_overwrite]
      split
      · rw [getElem?_overwrite]
        split
        · rfl
        · have hnone : items[x + i - first]? = none := List.getElem?_eq_none (by omega)
          rw [hnone, Option.none_or]
          split
          · rfl
          · exact (Array.getElem?_eq_none (by omega)).symm
      · rfl

theorem keeps_written (h : first + items.length ≤ last) :
    Keeps first last b (b.written s array first items) :=
  fun _ _ _ _ hout => part_written_of_disjoint (by omega)

/-- **What was written is read.** -/
theorem Fits.part_written_self (hf : b.Fits width n back) (hs : s = .back → back = true)
    (ha : array < width) (hlen : items.length = last - first) (hle : first ≤ last) (hl : last ≤ n) :
    (b.written s array first items).part s array first last = items := by
  obtain ⟨old, hget, hsize⟩ := hf.getElem?_arrays hs ha
  rw [part, arrays_written_self, Array.getElem?_modify, if_pos rfl, hget]
  simp only [Option.map_some, Option.getD_some]
  apply List.ext_getElem?
  intro i
  rw [Array.getElem?_toList, Array.getElem?_extract, size_overwrite, getElem?_overwrite]
  by_cases hi : i < items.length
  · have hsub : first + i - first = i := by omega
    rw [if_pos (by omega), if_neg (by omega), if_pos (by omega), hsub,
      List.getElem?_eq_getElem hi, Option.some_or]
  · rw [if_neg (by omega), List.getElem?_eq_none (by omega)]

/-! ## Settling -/

/-- The buffers with the final order of a range on the front side. -/
def settled (b : Buffers) (s : Side) (first last : Nat) : Buffers :=
  match s with
  | .front => b
  | .back => b.written .front 0 first (b.part .back 0 first last)

/-- **A range inside the arrays can be settled.** -/
theorem Fits.settle_eq (hf : b.Fits width n back) (hs : s = .back → back = true)
    (hle : first ≤ last) (hl : last ≤ n) :
    b.settle s first last = .ok (b.settled s first last) := by
  cases s with
  | front => rfl
  | back =>
    obtain ⟨source, hget, hsize⟩ := hf.getElem?_arrays hs hf.pos
    have hrange : checkRange source first last = .ok () := by
      rw [checkRange, if_pos (by simpa using ⟨hle, hsize ▸ hl⟩)]
    have hpart : (source.extract first last).toList = b.part .back 0 first last := by
      rw [part, hget, Option.getD_some]
    have hlen : (b.part .back 0 first last).length = last - first := hf.length_part hs hf.pos hl
    change (arrayAt (b.arrays .back) 0 >>= _) = _
    rw [arrayAt, hget, ok_bind, hrange, ok_bind, hpart,
      hf.put_eq (by simp) hf.pos (by omega), settled]

theorem Fits.settled (hf : b.Fits width n back) : (b.settled s first last).Fits width n back := by
  cases s with
  | front => exact hf
  | back =>
    rw [Buffers.settled]
    exact hf.written

theorem Fits.keeps_settled (hf : b.Fits width n back) (hs : s = .back → back = true)
    (hle : first ≤ last) (hl : last ≤ n) : Keeps first last b (b.settled s first last) := by
  cases s with
  | front => exact .refl first last b
  | back =>
    have hlen : (b.part .back 0 first last).length = last - first := hf.length_part hs hf.pos hl
    exact keeps_written (by omega)

/-- **A settled range has its items on the front side.** -/
theorem Fits.part_settled (hf : b.Fits width n back) (hs : s = .back → back = true)
    (hle : first ≤ last) (hl : last ≤ n) :
    (b.settled s first last).part .front 0 first last = b.part s 0 first last := by
  cases s with
  | front => rfl
  | back =>
    have hlen : (b.part .back 0 first last).length = last - first := hf.length_part hs hf.pos hl
    exact hf.part_written_self (s := .front) (by simp) hf.pos hlen hle hl

end Buffers

end BoxTree

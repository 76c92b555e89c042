import BoxTree.Partition
import BoxTree.Platform
import BoxTree.Proofs.Box.Faces
/-!
# What a partition counts

A partition hands on the number of items on each side and the boxes around them. Counting in
one pass gives exactly the summaries of the two sides. Every other way of gathering them, in
another order or piece by piece, gives summaries that **span** the same items: the count is
right, and the boxes have the faces of the union.
-/

namespace BoxTree

/-- The box that holds just the center of a box. -/
def Box.spot (b : Box) : Box := ⟨b.center, b.center⟩

theorem Box.numeric_spot {b : Box} (h : ∀ a, (b.centroid a).isNaN = false) : b.spot.Numeric := by
  intro a
  have hcenter : (b.center.get a).isNaN = false := (congrArg _ (b.get_center a)).trans (h a)
  exact ⟨hcenter, hcenter⟩

/-- A box none of whose coordinates and centroids is undefined. -/
structure Box.Defined (b : Box) : Prop where
  numeric : b.Numeric
  centroid : ∀ a, (b.centroid a).isNaN = false

theorem Box.Defined.spot {b : Box} (h : b.Defined) : b.spot.Numeric := Box.numeric_spot h.centroid

/-- An extent that describes a list of boxes up to the order they were gathered in. -/
structure Extent.Spans (e : Extent) (boxes : List Box) : Prop where
  bounds : (∀ b ∈ boxes, b.Numeric) →
    e.bounds.Numeric ∧ e.bounds.faces = (Box.around boxes).faces
  centers : (∀ b ∈ boxes, b.spot.Numeric) →
    e.centers.Numeric ∧ e.centers.faces = (Box.around (boxes.map Box.spot)).faces

namespace Extent

variable {e f : Extent} {boxes boxes' : List Box}

/-- The centers are gathered like boxes of their own. -/
theorem centers_ofBoxes (boxes : List Box) :
    (ofBoxes boxes).centers = Box.around (boxes.map Box.spot) := by
  have hfold : ∀ e : Extent,
      (boxes.foldl add e).centers = (boxes.map Box.spot).foldl Box.union e.centers := by
    induction boxes with
    | nil => exact fun _ => rfl
    | cons b rest ih => exact fun e => ih (e.add b)
  exact hfold .empty

theorem spans_ofBoxes (boxes : List Box) : (ofBoxes boxes).Spans boxes where
  bounds h := by
    rw [bounds_ofBoxes]
    exact ⟨Box.numeric_around h, rfl⟩
  centers h := by
    rw [centers_ofBoxes]
    exact ⟨Box.numeric_around (by simpa using h), rfl⟩

/-- The order of the boxes does not matter. -/
theorem Spans.perm (h : e.Spans boxes) (hp : boxes.Perm boxes') : e.Spans boxes' where
  bounds hn := by
    have hn' : ∀ b ∈ boxes, b.Numeric := fun b hb => hn b (hp.mem_iff.1 hb)
    rw [← Box.faces_around_perm hn' hp]
    exact h.bounds hn'
  centers hn := by
    have hn' : ∀ b ∈ boxes, b.spot.Numeric := fun b hb => hn b (hp.mem_iff.1 hb)
    rw [← Box.faces_around_perm (by simpa using hn') (hp.map Box.spot)]
    exact h.centers hn'

/-- **Two groups together** are spanned by the union of what spans each. -/
theorem Spans.union (he : e.Spans boxes) (hf : f.Spans boxes') :
    (e.union f).Spans (boxes ++ boxes') where
  bounds hn := by
    rw [List.forall_mem_append] at hn
    obtain ⟨hen, heq⟩ := he.bounds hn.1
    obtain ⟨hfn, hfeq⟩ := hf.bounds hn.2
    refine ⟨hen.union hfn, ?_⟩
    change (e.bounds.union f.bounds).faces = _
    rw [Box.faces_union hen hfn, heq, hfeq, Box.faces_around_append hn.1 hn.2]
  centers hn := by
    rw [List.forall_mem_append] at hn
    obtain ⟨hen, heq⟩ := he.centers hn.1
    obtain ⟨hfn, hfeq⟩ := hf.centers hn.2
    refine ⟨hen.union hfn, ?_⟩
    change (e.centers.union f.centers).faces = _
    rw [Box.faces_union hen hfn, heq, hfeq, List.map_append,
      Box.faces_around_append (by simpa using hn.1) (by simpa using hn.2)]

/-- Boxes that are gathered in pieces are spanned by what comes of it. -/
theorem spans_gather (g : Grouping Box) : (gather g).Spans g.pieces.flatten := by
  induction g with
  | nothing => exact spans_ofBoxes []
  | piece boxes =>
    rw [Grouping.pieces, List.flatten_singleton]
    exact spans_ofBoxes boxes
  | both first second ih ih' =>
    rw [Grouping.pieces, List.flatten_append]
    exact ih.union ih'

end Extent

/-- **The extent that a platform finds** spans the boxes. -/
theorem Platform.spans_extent (platform : Platform) (boxes : List Box) :
    (platform.extent boxes).Spans boxes := by
  have h := Extent.spans_gather (platform.boxes boxes).1
  rwa [(platform.boxes boxes).2] at h

/-! ## Summaries of items -/

namespace Half

/-- The summary of a list of items. -/
def ofItems (items : List Item) : Half := ⟨items.length, Extent.ofItems items⟩

/-- A summary of a list of items up to the order they were gathered in. -/
structure Sums (h : Half) (items : List Item) : Prop where
  count : h.count = items.length
  extent : h.extent.Spans (items.map Item.box)

variable {h k : Half} {items items' : List Item}

theorem sums_ofItems (items : List Item) : (ofItems items).Sums items :=
  ⟨rfl, Extent.spans_ofBoxes _⟩

theorem Sums.perm (hs : h.Sums items) (hp : items.Perm items') : h.Sums items' :=
  ⟨hs.count.trans hp.length_eq, hs.extent.perm (hp.map _)⟩

theorem Sums.union (hh : h.Sums items) (hk : k.Sums items') :
    (h.union k).Sums (items ++ items') where
  count := by rw [List.length_append, ← hh.count, ← hk.count]; rfl
  extent := by rw [List.map_append]; exact hh.extent.union hk.extent

/-- One item more at the end of the list is one item more in the summary. -/
theorem ofItems_concat (items : List Item) (o : Item) :
    ofItems (items ++ [o]) = (ofItems items).add o := by
  simp only [ofItems, add, Extent.ofItems, Extent.ofBoxes, List.length_append,
    List.length_singleton, List.map_append, List.map_singleton, List.foldl_append, List.foldl_cons,
    List.foldl_nil]

end Half

/-! ## The two sides of a plane -/

namespace Partition

/-- The items that go left, in their order. -/
def lefts (a : Axis) (value : Scalar) (items : List Item) : List Item :=
  items.filter (·.goesLeft a value)

/-- The items that go right, in their order. -/
def rights (a : Axis) (value : Scalar) (items : List Item) : List Item :=
  items.filter (!·.goesLeft a value)

/-- The stable partition of items. -/
def stable (a : Axis) (value : Scalar) (items : List Item) : List Item :=
  lefts a value items ++ rights a value items

variable {a : Axis} {value : Scalar} {o : Item} {items items' : List Item}

theorem lefts_cons_of_goesLeft (h : o.goesLeft a value = true) :
    lefts a value (o :: items) = o :: lefts a value items := List.filter_cons_of_pos h

theorem lefts_cons_of_not_goesLeft (h : ¬ o.goesLeft a value = true) :
    lefts a value (o :: items) = lefts a value items := List.filter_cons_of_neg h

theorem rights_cons_of_goesLeft (h : o.goesLeft a value = true) :
    rights a value (o :: items) = rights a value items :=
  List.filter_cons_of_neg (by simp [h])

theorem rights_cons_of_not_goesLeft (h : ¬ o.goesLeft a value = true) :
    rights a value (o :: items) = o :: rights a value items :=
  List.filter_cons_of_pos (by simp [h])

theorem lefts_append :
    lefts a value (items ++ items') = lefts a value items ++ lefts a value items' :=
  List.filter_append _ _

theorem rights_append :
    rights a value (items ++ items') = rights a value items ++ rights a value items' :=
  List.filter_append _ _

/-- **A stable partition keeps the items.** -/
theorem stable_perm (a : Axis) (value : Scalar) (items : List Item) :
    (stable a value items).Perm items := List.filter_append_perm _ items

theorem length_lefts_add_length_rights (a : Axis) (value : Scalar) (items : List Item) :
    (lefts a value items).length + (rights a value items).length = items.length := by
  rw [← List.length_append]
  exact (stable_perm a value items).length_eq

@[simp] theorem length_stable (a : Axis) (value : Scalar) (items : List Item) :
    (stable a value items).length = items.length := (stable_perm a value items).length_eq

/-- **Counting gives the summaries of both sides.** -/
theorem count_eq (a : Axis) (value : Scalar) (items : List Item) :
    Halves.count a value items =
      ⟨.ofItems (lefts a value items), .ofItems (rights a value items)⟩ := by
  have hfold : ∀ l r : List Item, items.foldl (Halves.add a value) ⟨.ofItems l, .ofItems r⟩ =
      ⟨.ofItems (l ++ lefts a value items), .ofItems (r ++ rights a value items)⟩ := by
    induction items with
    | nil => intro l r; simp [lefts, rights]
    | cons o rest ih =>
      intro l r
      rw [List.foldl_cons, Halves.add]
      split
      · rename_i h
        rw [← Half.ofItems_concat, ih, lefts_cons_of_goesLeft h, rights_cons_of_goesLeft h,
          List.append_assoc, List.singleton_append]
      · rename_i h
        rw [← Half.ofItems_concat, ih, lefts_cons_of_not_goesLeft h,
          rights_cons_of_not_goesLeft h, List.append_assoc, List.singleton_append]
  exact hfold [] []

/-- Both summaries of a partition describe the items of their side. -/
def Sides (h : Halves) (l r : List Item) : Prop := h.left.Sums l ∧ h.right.Sums r

theorem sides_count (a : Axis) (value : Scalar) (items : List Item) :
    Sides (Halves.count a value items) (lefts a value items) (rights a value items) := by
  rw [count_eq]
  exact ⟨Half.sums_ofItems _, Half.sums_ofItems _⟩

/-- Summaries of pieces put together describe all the items. -/
theorem sides_foldl_union (a : Axis) (value : Scalar) (pieces : List (List Item)) :
    Sides ((pieces.map (Halves.count a value)).foldl Halves.union .empty)
      (lefts a value pieces.flatten) (rights a value pieces.flatten) := by
  have hfold : ∀ (h : Halves) (l r : List Item), Sides h l r →
      Sides ((pieces.map (Halves.count a value)).foldl Halves.union h)
        (l ++ lefts a value pieces.flatten) (r ++ rights a value pieces.flatten) := by
    induction pieces with
    | nil => intro h l r hs; simpa [lefts, rights] using hs
    | cons piece rest ih =>
      intro h l r hs
      obtain ⟨hl, hr⟩ := sides_count a value piece
      have hnext : Sides (h.union (Halves.count a value piece)) (l ++ lefts a value piece)
          (r ++ rights a value piece) := ⟨hs.1.union hl, hs.2.union hr⟩
      rw [List.flatten_cons, lefts_append, rights_append, ← List.append_assoc, ← List.append_assoc]
      exact ih _ _ _ hnext
  exact hfold .empty [] [] ⟨Half.sums_ofItems [], Half.sums_ofItems []⟩

end Partition

end BoxTree

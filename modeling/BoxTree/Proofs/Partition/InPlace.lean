import BoxTree.Proofs.Partition.Summary
/-!
# Partitioning in place

The two pointers close in on each other over the items not yet examined. What lies before them
goes left and what lies behind them goes right, and an item is counted when it is put there. So
the left side keeps its order, the right side is filled from its end, and the summaries are
those of the sides as they are left behind.
-/

namespace BoxTree

namespace Partition

variable {a : Axis} {value : Scalar}

/-- The first item of a stretch and the last one change places. -/
theorem swap_ends (before middle behind : List Item) (o z : Item) :
    (before ++ o :: (middle ++ z :: behind)).toArray.swapIfInBounds before.length
        (before.length + (middle.length + 1)) =
      (before ++ z :: (middle ++ o :: behind)).toArray := by
  apply Array.ext
  · simp
  · intro i hi _
    rw [Array.getElem_swapIfInBounds]
    grind

/-- A single item changes places with itself. -/
theorem swap_single (before behind : List Item) (o : Item) :
    (before ++ o :: behind).toArray.swapIfInBounds before.length (before.length + 0) =
      (before ++ o :: behind).toArray := by
  apply Array.ext
  · simp
  · intro i hi _
    rw [Array.getElem_swapIfInBounds]
    grind

/-- An item that changes places with the last one unseen leaves all others unseen. -/
theorem exists_swap (before rest behind : List Item) (o : Item) :
    ∃ first : List Item, first.length = rest.length ∧ (first ++ [o]).Perm (o :: rest) ∧
      (before ++ (o :: rest ++ behind)).toArray.swapIfInBounds before.length
          (before.length + rest.length) =
        (before ++ (first ++ o :: behind)).toArray := by
  rcases List.eq_nil_or_concat rest with rfl | ⟨middle, z, rfl⟩
  · exact ⟨[], rfl, .refl _, swap_single before behind o⟩
  · rw [List.concat_eq_append]
    refine ⟨z :: middle, by simp, ?_, ?_⟩
    · have hends : (z :: middle ++ [o]).Perm (z :: o :: middle) :=
        (List.perm_append_singleton o middle).cons z
      have hback : (middle ++ [z]).Perm (z :: middle) := List.perm_append_singleton z middle
      exact (hends.trans (.swap o z middle)).trans (hback.symm.cons o)
    · have hswap := swap_ends before middle behind o z
      simpa using hswap

/-- **What the two pointers leave behind.** -/
theorem inPlaceFrom_eq (k : Nat) (before unseen behind : List Item) (h : Halves)
    (hk : unseen.length = k) :
    ∃ l r : List Item, (l ++ r).Perm unseen ∧ (∀ o ∈ l, o.goesLeft a value = true) ∧
      (∀ o ∈ r, ¬ o.goesLeft a value = true) ∧
      inPlaceFrom a value k before.length (before ++ (unseen ++ behind)).toArray h =
        ((before ++ (l ++ r ++ behind)).toArray,
          ⟨l.foldl Half.add h.left, r.reverse.foldl Half.add h.right⟩) := by
  induction k generalizing before unseen behind h with
  | zero =>
    rw [List.length_eq_zero_iff] at hk
    subst hk
    exact ⟨[], [], .refl _, by simp, by simp, rfl⟩
  | succ k ih =>
    obtain ⟨o, rest, rfl⟩ := List.exists_cons_of_length_eq_add_one hk
    have hrest : rest.length = k := by simpa using hk
    have hget : (before ++ (o :: rest ++ behind)).toArray[before.length]? = some o := by simp
    rw [inPlaceFrom, hget]
    by_cases ho : o.goesLeft a value = true
    · -- the item stays, and the left pointer passes it
      obtain ⟨l, r, hp, hl, hr, heq⟩ := ih (before ++ [o]) rest behind (h.add a value o) hrest
      have hmove : before ++ (o :: rest ++ behind) = before ++ [o] ++ (rest ++ behind) := by simp
      have hlen : (before ++ [o]).length = before.length + 1 := by simp
      refine ⟨o :: l, r, hp.cons o, List.forall_mem_cons.2 ⟨ho, hl⟩, hr, ?_⟩
      simp only [ho, if_true]
      rw [hmove, ← hlen, heq, Halves.add, if_pos ho]
      simp
    · -- the item changes places with the last one unseen, and the right pointer passes it
      have hadd : h.add a value o = ⟨h.left, h.right.add o⟩ := by rw [Halves.add, if_neg ho]
      obtain ⟨first, hlen, hperm, hset⟩ := exists_swap before rest behind o
      rw [hrest] at hlen hset
      obtain ⟨l, r, hp, hl, hr, heq⟩ := ih before first (o :: behind) (h.add a value o) hlen
      refine ⟨l, r ++ [o], ?_, hl, ?_, ?_⟩
      · rw [← List.append_assoc]
        exact (hp.append_right [o]).trans hperm
      · rw [List.forall_mem_append]
        exact ⟨hr, by simpa using ho⟩
      · simp only [ho]
        rw [hset, if_neg Bool.false_ne_true, heq, hadd]
        simp

/-- A summary of a list of items, gathered one by one. -/
theorem foldl_add_empty (items : List Item) : items.foldl Half.add .empty = .ofItems items := by
  have hfold : ∀ seen : List Item,
      items.foldl Half.add (.ofItems seen) = .ofItems (seen ++ items) := by
    induction items with
    | nil => intro seen; rw [List.append_nil]; rfl
    | cons o rest ih =>
      intro seen
      rw [List.foldl_cons, ← Half.ofItems_concat, ih, List.append_assoc, List.singleton_append]
  exact hfold []

/-- **A partition in place** keeps the items, puts those that go left in front of all others,
and summarises the two sides it leaves. -/
theorem inPlace_eq (a : Axis) (value : Scalar) (items : List Item) :
    ∃ l r : List Item, (l ++ r).Perm items ∧ (∀ o ∈ l, o.goesLeft a value = true) ∧
      (∀ o ∈ r, ¬ o.goesLeft a value = true) ∧ (inPlace a value items).1 = l ++ r ∧
      Sides (inPlace a value items).2 l r := by
  obtain ⟨l, r, hp, hl, hr, heq⟩ := @inPlaceFrom_eq a value _ [] items [] .empty rfl
  rw [List.append_nil, List.nil_append, List.nil_append, List.append_nil, List.length_nil] at heq
  refine ⟨l, r, hp, hl, hr, ?_, ?_⟩
  · rw [inPlace, heq]
  · rw [inPlace, heq]
    refine ⟨?_, ?_⟩
    · change Half.Sums (l.foldl Half.add .empty) l
      rw [foldl_add_empty]
      exact Half.sums_ofItems l
    · -- the right side was gathered from its end
      change Half.Sums (r.reverse.foldl Half.add .empty) r
      rw [foldl_add_empty]
      exact (Half.sums_ofItems _).perm r.reverse_perm

/-- The summaries of a partition in place describe what goes left and what goes right. -/
theorem sides_inPlace (a : Axis) (value : Scalar) (items : List Item) :
    Sides (inPlace a value items).2 (lefts a value items) (rights a value items) := by
  obtain ⟨l, r, hp, hl, hr, -, hsides⟩ := inPlace_eq a value items
  have hleft : lefts a value (l ++ r) = l := by
    rw [lefts_append, lefts, lefts, List.filter_eq_self.2 hl, List.filter_eq_nil_iff.2 hr,
      List.append_nil]
  have hright : rights a value (l ++ r) = r := by
    rw [rights_append, rights, rights, List.filter_eq_nil_iff.2 (by simpa using hl),
      List.filter_eq_self.2 (by simpa using hr), List.nil_append]
  refine ⟨hsides.1.perm ?_, hsides.2.perm ?_⟩
  · rw [← hleft]
    exact hp.filter _
  · rw [← hright]
    exact hp.filter _

end Partition

end BoxTree

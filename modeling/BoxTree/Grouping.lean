/-!
# Groupings

Work on a list may be done piece by piece, and the results of neighbouring pieces put together in
any grouping; the result of nothing may be put in anywhere. A `Grouping` is such a way: which one it
is, a thread pool decides while it runs.
-/

namespace BoxTree

/-- A way to put together what comes of consecutive pieces. -/
inductive Grouping (α : Type) where
  | nothing
  | piece (items : List α)
  | both (first second : Grouping α)

namespace Grouping

variable {α β : Type}

/-- The pieces of a grouping, in their order. -/
def pieces : Grouping α → List (List α)
  | nothing => []
  | piece items => [items]
  | both first second => first.pieces ++ second.pieces

/-- What comes of a grouping: `work` is done on the pieces and `none` is the result of nothing. -/
def reduce (merge : β → β → β) (none : β) (work : List α → β) : Grouping α → β
  | nothing => none
  | piece items => work items
  | both first second => merge (first.reduce merge none work) (second.reduce merge none work)

/-- The pieces from the first to the last, each put behind all before it. -/
def leftToRight (pieces : List (List α)) : Grouping α :=
  pieces.foldl (fun g p => both g (piece p)) nothing

/-- A list that is cut in the middle, and its halves again, as long as there are two items to cut
apart and for a number of times. -/
def halved : (times : Nat) → List α → Grouping α
  | 0, items => piece items
  | times + 1, items =>
    if items.length < 2 then piece items
    else both (halved times (items.take (items.length / 2)))
      (halved times (items.drop (items.length / 2)))

theorem pieces_foldl_both (ps : List (List α)) (g : Grouping α) :
    (ps.foldl (fun g p => both g (piece p)) g).pieces = g.pieces ++ ps := by
  induction ps generalizing g with
  | nil => exact (List.append_nil _).symm
  | cons p rest ih =>
    rw [List.foldl_cons, ih, pieces, pieces, List.append_assoc, List.singleton_append]

theorem pieces_leftToRight (ps : List (List α)) : (leftToRight ps).pieces = ps :=
  pieces_foldl_both ps nothing

/-- A way to put the results of pieces together, whatever the pieces are. -/
abbrev Way (α : Type) : Type := (pieces : List (List α)) → { g : Grouping α // g.pieces = pieces }

/-- The way from the first piece to the last. -/
def inOrder : Way α := fun pieces => ⟨leftToRight pieces, pieces_leftToRight pieces⟩

/-- **Halving cuts a list into pieces of it.** -/
theorem flatten_halved (times : Nat) (items : List α) :
    (halved times items).pieces.flatten = items := by
  induction times generalizing items with
  | zero => exact List.flatten_singleton
  | succ times ih =>
    unfold halved
    split
    · exact List.flatten_singleton
    · rw [pieces, List.flatten_append, ih, ih, List.take_append_drop]

end Grouping

end BoxTree

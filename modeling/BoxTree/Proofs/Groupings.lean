import BoxTree.Grouping
import Mathlib.Data.List.Basic
/-!
# Reducing groupings

**Where putting results together is working on the lists one behind the other, every grouping comes
to the work on the whole list** (`Grouping.reduce_eq`).
-/

namespace BoxTree

namespace Grouping

variable {α β : Type}

/-- The pieces from the last to the first, each put in front of all behind it, with nothing put in
before every one. -/
def rightToLeft (pieces : List (List α)) : Grouping α :=
  pieces.foldr (fun p g => both (both nothing (piece p)) g) nothing

variable {merge : β → β → β} {none : β} {work : List α → β} {P : α → Prop}

/-- **No grouping makes a difference.** -/
theorem reduce_eq (hnone : work [] = none)
    (hmerge : ∀ xs ys, (∀ x ∈ xs, P x) → (∀ y ∈ ys, P y) →
      merge (work xs) (work ys) = work (xs ++ ys))
    (g : Grouping α) (hg : ∀ x ∈ g.pieces.flatten, P x) :
    g.reduce merge none work = work g.pieces.flatten := by
  induction g with
  | nothing => exact hnone.symm
  | piece items => rw [reduce, pieces, List.flatten_singleton]
  | both first second ih ih' =>
    rw [pieces, List.flatten_append] at hg ⊢
    rw [List.forall_mem_append] at hg
    rw [reduce, ih hg.1, ih' hg.2, hmerge _ _ hg.1 hg.2]

theorem pieces_rightToLeft (ps : List (List α)) : (rightToLeft ps).pieces = ps := by
  induction ps with
  | nil => rfl
  | cons p rest ih => exact congrArg (p :: ·) ih

/-- The way from the last piece to the first. -/
def fromBehind : Way α := fun pieces => ⟨rightToLeft pieces, pieces_rightToLeft pieces⟩

theorem reduce_leftToRight (ps : List (List α)) :
    (leftToRight ps).reduce merge none work = (ps.map work).foldl merge none := by
  have hfold : ∀ g : Grouping α,
      (ps.foldl (fun g p => both g (piece p)) g).reduce merge none work =
        (ps.map work).foldl merge (g.reduce merge none work) := by
    induction ps with
    | nil => exact fun _ => rfl
    | cons p rest ih => exact fun g => ih (both g (piece p))
  exact hfold nothing

end Grouping

end BoxTree

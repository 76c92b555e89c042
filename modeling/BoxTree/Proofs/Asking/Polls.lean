import BoxTree.Proofs.Asking.Heeds
import BoxTree.Proofs.Growth.Moves
/-!
# What a watch has heard

A watch counts the questions that were asked, and asks no more once the answer was to stop. So it
knows which answers there have been: all of them to proceed, or all but the last one. Work that
asks one question after the other keeps the count right (`Asking.Listens`), up to the question at
which its check fails. Work on nested threads does not: a second thread asks on after the first
one has failed, and so the decisions of a build are followed without nested threads only.
-/

namespace BoxTree

/-- The check answers the questions before `k` with leave to proceed. -/
def Check.Calm (check : Check) (k : Nat) : Prop := ∀ i < k, check i = .proceed

/-- A watch after the questions of a build whose check has not failed: every answer was to
proceed, or the last one was to stop. -/
def Watch.Follows (check : Check) (w : Watch) : Prop :=
  if w.aborted then ∃ k, w.polls = k + 1 ∧ check.Calm k ∧ check k = .stop
  else check.Calm w.polls

variable {check : Check} {w : Watch} {k : Nat}

theorem Check.Calm.succ (h : check.Calm k) (hk : check k = .proceed) : check.Calm (k + 1) := by
  intro i hi
  rcases Nat.lt_succ_iff_lt_or_eq.1 hi with hi | rfl
  · exact h i hi
  · exact hk

theorem Watch.follows_of_calm {polls : Nat} (h : check.Calm polls) :
    Watch.Follows check ⟨polls, false⟩ := h

theorem Watch.Follows.calm (h : w.Follows check) (hw : w.aborted = false) :
    check.Calm w.polls := by
  unfold Follows at h
  rw [if_neg (by simp [hw])] at h
  exact h

theorem Watch.Follows.stopped (h : w.Follows check) (hw : w.aborted = true) :
    ∃ k, w.polls = k + 1 ∧ check.Calm k ∧ check k = .stop := by
  unfold Follows at h
  rw [if_pos hw] at h
  exact h

/-- A result that is not a fault of the check. -/
def Unasked {α : Type} (r : Except Fault α) : Prop := ∀ text, r ≠ .error (.check text)

section Unasked

variable {α β : Type} {r : Except Fault α}

theorem unasked_of_overflow (h : ∀ f, r = .error f → ∃ operation, f = .overflow operation) :
    Unasked r := by
  intro text heq
  obtain ⟨operation, hop⟩ := h _ heq
  cases hop

theorem Unasked.bind {next : α → Except Fault β} (h : Unasked r) (hnext : ∀ a, Unasked (next a)) :
    Unasked (r >>= next) := by
  intro text heq
  rcases bind_eq_error heq with heq | ⟨a, -, heq⟩
  · exact h text heq
  · exact hnext a text heq

theorem Unasked.map {f : α → β} (h : Unasked r) : Unasked (r.map f) :=
  fun text heq => h text (map_eq_error heq)

end Unasked

namespace Asking

variable {α β : Type}

/-- A result that is not a failure of the check. -/
def Own (r : Except Failure α) : Prop := ∀ text, r ≠ .error (.fault (.check text))

/-- How work ends whose watch has heard every answer of the check. -/
inductive Heard (check : Check) : Except Failure α × Watch → Prop where
  /-- The watch still has. -/
  | on {r : Except Failure α} {w : Watch} (h : w.Follows check) (hr : Own r) : Heard check (r, w)
  /-- The check has failed at the last question. -/
  | failed {k : Nat} {text : Option String} (hcalm : check.Calm k) (h : check k = .failed text) :
    Heard check (.error (.fault (.check text)), ⟨k + 1, false⟩)

/-- Work that ends so from every watch. -/
def Listens (check : Check) (work : Asking Watch α) : Prop :=
  ∀ w, w.Follows check → Heard check (work.runFrom w)

theorem own_ok {a : α} : Own (.ok a) := nofun

theorem Own.error {f : Failure} (h : Own (.error f : Except Failure α)) :
    Own (.error f : Except Failure β) := by
  intro text heq
  cases heq
  exact h text rfl

/-! ## Laws -/

theorem listens_pure (a : α) : Listens check (pure a : Asking Watch α) :=
  fun _ hw => .on hw own_ok

/-- A fault that is not the check's leaves the watch alone. -/
theorem listens_ofFault {r : Except Fault α} (h : Unasked r) :
    Listens check (ofFault r : Asking Watch α) := by
  intro w hw
  cases r with
  | ok a => exact .on hw own_ok
  | error f =>
    refine .on hw fun text heq => h text ?_
    cases heq
    rfl

theorem listens_ofError (r : Except BuildError α) :
    Listens check (ofError r : Asking Watch α) := by
  intro w hw
  cases r with
  | ok a => exact .on hw own_ok
  | error e => exact .on hw nofun

/-- **A question** is heard. -/
theorem listens_shouldStop : Listens check (Watch.shouldStop check) := by
  intro w hw
  change Heard check (Watch.shouldStop check w)
  unfold Watch.shouldStop
  by_cases hab : w.aborted = true
  · rw [if_pos hab]
    exact .on hw own_ok
  · rw [if_neg hab]
    have hcalm := hw.calm (Bool.not_eq_true _ ▸ hab)
    cases hc : check w.polls with
    | proceed =>
      simp only [Check.ask, hc]
      exact .on (Watch.follows_of_calm (hcalm.succ hc)) own_ok
    | stop =>
      simp only [Check.ask, hc]
      exact .on ⟨w.polls, rfl, hcalm, hc⟩ own_ok
    | failed text =>
      simp only [Check.ask, hc]
      exact .failed hcalm hc

/-- **One piece of work after another.** What is to follow a failure is not begun. -/
theorem Listens.bind {work : Asking Watch α} {next : α → Asking Watch β} (h : Listens check work)
    (hnext : ∀ a, Listens check (next a)) : Listens check (work >>= next) := by
  intro w hw
  rw [runFrom_bind]
  have hfirst := h w hw
  generalize work.runFrom w = r at hfirst
  cases hfirst with
  | failed hcalm hk => exact .failed hcalm hk
  | @on r w' hw' hown =>
    cases r with
    | error f => exact .on hw' hown.error
    | ok a => exact hnext a w' hw'

/-- **Work that is not begun** when the answer is to stop. -/
theorem Listens.unless {work : Asking Watch α} (instead : α) (h : Listens check work) :
    Listens check (do if ← Watch.shouldStop check then pure instead else work) := by
  refine listens_shouldStop.bind fun stop => ?_
  cases stop with
  | true => exact listens_pure instead
  | false => exact h

end Asking

open Asking

/-! ## Decisions -/

/-- Reading the buffers is not asking. -/
theorem Buffers.unasked_view (b : Buffers) (s : Side) (array first last : Nat) :
    Unasked (b.view s array first last) := by
  have hside : Unasked (b.side s) := by
    unfold side
    split
    · nofun
    · split <;> nofun
  have harray : ∀ arrays, Unasked (arrayAt arrays array) := by
    intro arrays
    unfold arrayAt
    split <;> nofun
  have hrange : ∀ items, Unasked (checkRange items first last) := by
    intro items
    unfold checkRange
    split <;> nofun
  exact hside.bind fun arrays => (harray arrays).bind fun items => (hrange items).bind fun _ =>
    nofun

namespace Sweep

theorem unasked_search (a : Axis) (items : List Item) (table : Array Scalar) :
    Unasked (search a items table) := by
  unfold search
  split
  · nofun
  · split <;> nofun

theorem listens_searchAxes (arrays : PerAxis (List Item)) (axes : List Axis) (best : Option Split)
    (table : Array Scalar) :
    Listens check (searchAxes (Watch.shouldStop check) arrays axes best table) := by
  induction axes generalizing best table with
  | nil => exact listens_pure _
  | cons a rest ih =>
    rw [searchAxes]
    refine .unless _ ?_
    refine (listens_ofFault (unasked_search _ _ _)).bind fun found => ?_
    exact ih _ _

/-- The search without nested threads. -/
theorem listens_find (arrays : PerAxis (List Item)) (table : Array Scalar) :
    Listens check (find (Watch.shouldStop check) 0 arrays table) := by
  unfold find
  rw [if_pos rfl]
  exact (listens_ofError _).bind fun table => listens_searchAxes arrays Axis.all none table

end Sweep

theorem Bins.listens_find (nested : Bool) (tasks : Nat) (items : List Item) (centers : Box)
    (group : Grouping.Way Item) :
    Listens check (Bins.find (Watch.shouldStop check) nested tasks items centers group) := by
  unfold Bins.find
  split
  · exact listens_pure none
  · refine .unless _ ?_
    refine (listens_ofFault (unasked_of_overflow fun _ => gather_error)).bind fun bins => ?_
    exact .unless _ (listens_pure _)

namespace Plan

variable {p : Plan} {b : Buffers} {r : Region}

theorem unasked_items (b : Buffers) (r : Region) (array : Nat) : Unasked (items b r array) :=
  (Buffers.unasked_view _ _ _ _ _).map

theorem unasked_sortedItems (b : Buffers) (r : Region) : Unasked (sortedItems b r) :=
  (unasked_items b r 0).bind fun _ => (unasked_items b r 1).bind fun _ =>
    (unasked_items b r 2).bind fun _ => nofun

theorem usesNested_of_not_nested (h : p.nested = false) (size threshold : Nat) :
    p.usesNested size threshold = false := by
  rw [usesNested, h, Bool.false_and]

theorem listens_findSplit (h : p.nested = false) (b : Buffers) (r : Region)
    (table : Array Scalar) :
    Listens check (p.findSplit (Watch.shouldStop check) b r table) := by
  unfold findSplit
  cases p.search with
  | exact =>
    have hthreads : p.threadsFor r.size p.settings.axisThreshold = 0 := by
      rw [threadsFor, usesNested_of_not_nested h, if_neg Bool.false_ne_true]
    simp only [hthreads]
    refine (listens_ofFault (unasked_sortedItems b r)).bind fun arrays => ?_
    exact Sweep.listens_find arrays table
  | binning =>
    refine (listens_ofFault (unasked_items b r 0)).bind fun items => ?_
    exact (Bins.listens_find _ _ _ _ _).bind fun found => listens_pure _

end Plan

/-- **Every decision of a build without nested threads** hears what the check answers. -/
theorem Task.listens_decide {p : Plan} (h : p.nested = false) (b : Buffers) (table : Array Scalar)
    (work : Work) : Listens check (decide p (Watch.shouldStop check) b table work) := by
  cases work with
  | split slot r =>
    simp only [decide, decideSplit]
    refine .unless _ ?_
    split
    · exact listens_pure _
    · split
      · exact listens_pure _
      · refine (Plan.listens_findSplit h b r table).bind fun found => ?_
        refine .unless _ ?_
        split
        · exact listens_pure _
        · split <;> exact listens_pure _
  | halve slot r =>
    simp only [decide, decideHalve]
    refine Listens.bind (.unless _ ?_) fun _ => listens_pure _
    split <;> exact listens_pure _

end BoxTree

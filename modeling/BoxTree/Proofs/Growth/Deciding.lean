import BoxTree.Proofs.Asking.Heeds
import BoxTree.Proofs.Growth.Moves
/-!
# Decisions are verdicts

A task decides about a region by reading its items from the buffers and asking now and then
whether to stop. Whoever is asked, on however many nested threads, and whatever an earlier search
left in the table: a task that is not told to stop decides what `Plan.verdict` says of the plot.
-/

namespace BoxTree

open Asking

variable {check : Check} {Q : Fault → Prop}

/-! ## The exact search -/

namespace Sweep

/-- Fewer than two items have no split. -/
theorem cheapest_of_length_lt_two (a : Axis) {items : List Item} (h : items.length < 2) :
    cheapest a items = none := by
  match items with
  | [] => rfl
  | [o] => rfl
  | _ :: _ :: rest => exact absurd h (by simp)

/-- **A search of one axis finds the cheapest split**, with any table that is long enough. -/
theorem search_eq (a : Axis) {items : List Item} {table : Array Scalar}
    (h : items.length ≤ table.size) :
    ∃ table', search a items table = .ok (cheapest a items, table') ∧ table'.size = table.size := by
  unfold search
  split
  · rename_i hshort
    exact ⟨table, by rw [cheapest_of_length_lt_two a hshort], rfl⟩
  · rw [if_neg (by omega)]
    exact ⟨_, rfl, size_overwrite _ _ _⟩

/-- A table can be grown for every number of objects a build may have. -/
theorem grow_eq {table : Array Scalar} {count : Nat} (h : count ≤ limit32) :
    ∃ table', grow table count = .ok table' ∧ count ≤ table'.size := by
  have hroom : count * 4 ≤ maxAllocation := by
    have : limit32 * 4 ≤ maxAllocation := by decide
    omega
  unfold grow grownLength
  split
  · refine ⟨table ++ Array.replicate (count - table.size) 0, ?_, ?_⟩
    · rw [reserve, if_pos hroom, ok_map, ok_map]
    · rw [Array.size_append, Array.size_replicate]
      omega
  · refine ⟨_, rfl, ?_⟩
    rw [Array.size_append]
    omega

/-- One table serves the axes in turn. -/
theorem heeds_searchAxes (arrays : PerAxis (List Item)) (axes : List Axis) (best : Option Split)
    {table : Array Scalar} (h : ∀ a, (arrays.get a).length ≤ table.size) :
    Heeds check (searchAxes (Watch.shouldStop check) arrays axes best table)
      (fun found => found.1 =
        (axes.map fun a => cheapest a (arrays.get a)).foldl Split.better best) Q := by
  induction axes generalizing best table with
  | nil => exact heeds_pure rfl
  | cons a rest ih =>
    obtain ⟨table', heq, hsize⟩ := search_eq a (h a)
    rw [searchAxes, heq, ofFault_ok]
    refine .unless _ ?_
    exact ih (Split.better best (cheapest a (arrays.get a))) fun c => hsize ▸ h c

/-- A search with a table of its own. -/
theorem heeds_searchAlone (a : Axis) {items : List Item} {count : Nat} (h : items.length ≤ count)
    (hc : count ≤ limit32) :
    Heeds check (searchAlone (Watch.shouldStop check) count a items) (· = cheapest a items) Q := by
  obtain ⟨table, heq, hsize⟩ := @grow_eq #[] count hc
  obtain ⟨table', hfound, -⟩ := search_eq a (h.trans hsize)
  rw [searchAlone, heq, ofError_ok]
  refine .unless _ ?_
  change Heeds check (Asking.ofFault (search a items table) >>= fun found => pure found.1) _ Q
  rw [hfound]
  exact heeds_pure rfl

/-- Searching the axes apart finds what searching them in turn finds. -/
theorem heeds_searchApart (threads : Nat) (arrays : PerAxis (List Item))
    (h : ∀ a, (arrays.get a).length ≤ arrays.x.length) (hc : arrays.x.length ≤ limit32) :
    Heeds check (searchApart (Watch.shouldStop check) threads arrays)
      (· = Split.best (Axis.all.map fun a => cheapest a (arrays.get a))) Q := by
  have halone : ∀ a, Heeds check
      (searchAlone (Watch.shouldStop check) arrays.x.length a (arrays.get a))
      (· = cheapest a (arrays.get a)) Q := fun a => heeds_searchAlone a (h a) hc
  have hothers : Heeds check
      (if threads = 1 then do
        pure (← searchAlone (Watch.shouldStop check) arrays.x.length .y (arrays.get .y),
          ← searchAlone (Watch.shouldStop check) arrays.x.length .z (arrays.get .z))
      else Asking.both (searchAlone (Watch.shouldStop check) arrays.x.length .y (arrays.get .y))
        (searchAlone (Watch.shouldStop check) arrays.x.length .z (arrays.get .z)))
      (fun r => r.1 = cheapest .y (arrays.get .y) ∧ r.2 = cheapest .z (arrays.get .z)) Q := by
    split
    · refine (halone .y).bind fun y => ?_
      refine (halone .z).bind fun z => ?_
      exact heeds_pure fun hz hy => ⟨hy, hz⟩
    · exact (halone .y).both (halone .z)
  refine ((halone .x).both hothers).bind fun r => heeds_pure ?_
  rintro ⟨hx, hy, hz⟩
  rw [hx, hy, hz]
  rfl

/-- **The exact search**, on any number of threads and with any table. -/
theorem heeds_find (threads : Nat) (arrays : PerAxis (List Item)) (table : Array Scalar)
    (h : ∀ a, (arrays.get a).length ≤ arrays.x.length) (hc : arrays.x.length ≤ limit32) :
    Heeds check (find (Watch.shouldStop check) threads arrays table)
      (fun found => found.1 = Split.best (Axis.all.map fun a => cheapest a (arrays.get a))) Q := by
  unfold find
  split
  · obtain ⟨table', heq, hsize⟩ := @grow_eq table _ hc
    rw [heq, ofError_ok]
    exact heeds_searchAxes arrays Axis.all none fun a => (h a).trans hsize
  · refine (heeds_searchApart threads arrays h hc).bind fun found => ?_
    exact heeds_pure id

end Sweep

/-! ## The binned search -/

/-- The split between the bins of a range of items, and the fault where their number is too large
to be cut into pieces. -/
theorem Bins.heeds_find (nested : Bool) (tasks : Nat) (items : List Item) (centers : Box)
    (group : Grouping.Way Item) :
    Heeds check (Bins.find (Watch.shouldStop check) nested tasks items centers group)
      (fun found => (if items.length < 2 then .ok none
        else (gather group items centers nested tasks).map cheapest) = .ok found)
      (fun f => (if items.length < 2 then .ok none
        else (gather group items centers nested tasks).map cheapest) = .error f) := by
  unfold Bins.find
  by_cases h : items.length < 2
  · simp only [if_pos h]
    exact heeds_pure rfl
  · simp only [if_neg h]
    refine .unless _ ?_
    cases hg : gather group items centers nested tasks with
    | error f =>
      have hfault : Heeds check (ofFault (.error f) : Asking Watch Bins) (fun _ => False)
          (fun g => Except.map cheapest (.error f : Except Fault Bins) = .error g) :=
        heeds_fault rfl
      exact hfault.bind fun _ => .unless _ (heeds_pure False.elim)
    | ok bins =>
      rw [ofFault_ok, pure_bind]
      exact .unless _ (heeds_pure rfl)

/-! ## Decisions -/

variable {p : Plan} {b : Buffers} {r : Region} {n : Nat} {back : Bool} {w : Watch}
  {table : Array Scalar}

namespace Plan

theorem width_pos (p : Plan) : 0 < p.width := by
  unfold width
  split <;> decide

/-- The items of a region in one of its arrays can be read. -/
theorem items_eq (hf : b.Fits p.width n back) (hr : r.Lies n back) {array : Nat}
    (ha : array < p.width) : items b r array = .ok (b.part r.side array r.first r.last) := by
  rw [items, hf.view_eq hr.side ha hr.le hr.last_le, ok_map]

theorem stock_exact (h : p.search = .exact) (b : Buffers) (r : Region) :
    p.stock b r = .sorted ⟨b.part r.side 0 r.first r.last, b.part r.side 1 r.first r.last,
      b.part r.side 2 r.first r.last⟩ := by
  simp only [stock, h]

theorem stock_binning (h : p.search = .binning) (b : Buffers) (r : Region) :
    p.stock b r = .single (b.part r.side 0 r.first r.last) := by
  simp only [stock, h]

/-- **The search of a region** finds what is to be found on its items. -/
theorem heeds_findSplit (hf : b.Fits p.width n back) (hr : r.Lies n back) (hn : n ≤ limit32) :
    Heeds check (p.findSplit (Watch.shouldStop check) b r table)
      (fun found => p.found r (p.stock b r) = .ok found.1)
      (fun f => p.found r (p.stock b r) = .error f) := by
  have hlast := hr.last_le
  cases hsearch : p.search with
  | exact =>
    have hwidth : p.width = 3 := by rw [width, hsearch]
    have hlen : ∀ array < p.width, (b.part r.side array r.first r.last).length = r.last - r.first :=
      fun array ha => hf.length_part hr.side ha hlast
    rw [stock_exact hsearch, found]
    simp only [findSplit, hsearch, sortedItems]
    rw [items_eq hf hr (by omega), items_eq hf hr (by omega), items_eq hf hr (by omega)]
    refine (Sweep.heeds_find _ _ table ?_ ?_).imp (fun _ h => congrArg Except.ok h.symm)
      fun f h => h
    · intro a
      have hx := hlen 0 (by omega)
      have hy := hlen 1 (by omega)
      have hz := hlen 2 (by omega)
      cases a <;> simp only [PerAxis.get] <;> omega
    · rw [hlen 0 (by omega)]
      omega
  | binning =>
    rw [stock_binning hsearch, found]
    simp only [findSplit, hsearch]
    rw [items_eq hf hr hf.pos, ofFault_ok, pure_bind]
    refine (Bins.heeds_find _ _ _ _ _).bind fun found => ?_
    exact heeds_pure id

end Plan

/-- How a task decides about a plot, in terms of the verdict about it. -/
inductive Decides (check : Check) (verdict : Except Fault Decision) (w : Watch) :
    Except Failure (Decision × Array Scalar) × Watch → Prop where
  /-- The task is to stop. -/
  | stopped {table : Array Scalar} {w' : Watch} (h : w'.aborted = true)
      (why : w.aborted = true ∨ ∃ n, check n = .stop) :
    Decides check verdict w (.ok (.stop, table), w')
  | done {d : Decision} {table : Array Scalar} {w' : Watch} (h : w.aborted = false)
      (h' : w'.aborted = false) (hv : verdict = .ok d) :
    Decides check verdict w (.ok (d, table), w')
  /-- The check failed. -/
  | failed {n : Nat} {text : Option String} {w' : Watch} (h : check n = .failed text) :
    Decides check verdict w (.error (.fault (.check text)), w')
  /-- There is no verdict. -/
  | broke {f : Fault} {w' : Watch} (hv : verdict = .error f) :
    Decides check verdict w (.error (.fault f), w')

namespace Work

/-- Whether a piece of work is a region that is halved. -/
def halved : Work → Bool
  | split _ _ => false
  | halve _ _ => true

end Work

namespace Task

/-- A decision that is taken without a search. -/
theorem decides_pure {verdict : Except Fault Decision} {d : Decision} {w' : Watch}
    (hw : w.aborted = false) (hw' : w'.aborted = false) (hv : verdict = .ok d) :
    Decides check verdict w ((pure (d, table) : Asking Watch _).runFrom w') := by
  rw [runFrom_pure]
  exact .done hw hw' hv

theorem decideSplit_decides (hf : b.Fits p.width n back) (hr : r.Lies n back) (hn : n ≤ limit32)
    (table : Array Scalar) (w : Watch) :
    Decides check (p.verdict (p.plot b false r)) w
      ((decideSplit p (Watch.shouldStop check) b r table).runFrom w) := by
  unfold decideSplit Plan.verdict Plan.plot
  rw [runFrom_bind]
  rcases ask_cases check w with ⟨w', heq, hw', why⟩ | ⟨w', heq, hw', hw⟩ | ⟨m, text, w', hc, heq⟩
  · rw [heq]
    exact .stopped hw' why
  · rw [heq]
    simp only [Bool.false_eq_true, if_false]
    split
    · exact decides_pure hw hw' rfl
    · split
      · exact decides_pure hw hw' rfl
      -- the check is asked again by the search, and once more when the search is over
      · rw [runFrom_bind]
        have hsearch := @Plan.heeds_findSplit check p b r n back table hf hr hn w'
        generalize (p.findSplit (Watch.shouldStop check) b r table).runFrom w' = found at hsearch
        cases hsearch with
        | failed h => exact .failed h
        | broke h => exact .broke (by rw [h]; rfl)
        | @stopped out w'' hw'' why =>
          -- the search says nothing, but whoever is asked again gives the same answer
          simp only [runFrom_bind, ask_of_aborted check hw'']
          exact .stopped hw'' (.inr (why.resolve_left (by simp [hw'])))
        | @done out w'' _ hw'' hfound =>
          simp only [runFrom_bind]
          rcases ask_cases check w'' with ⟨w₂, heq, hw₂, why⟩ | ⟨w₂, heq, hw₂, -⟩ |
            ⟨m, text, w₂, hc, heq⟩
          · rw [heq]
            exact .stopped hw₂ (.inr (why.resolve_left (by simp [hw''])))
          · rw [heq, hfound, ok_map]
            rcases out with ⟨_ | s, table'⟩
            · exact decides_pure hw hw₂ rfl
            · simp only [Plan.judged, Bool.false_eq_true, if_false]
              split
              · exact decides_pure hw hw₂ rfl
              · exact decides_pure hw hw₂ rfl
          · rw [heq]
            exact .failed hc
  · rw [heq]
    exact .failed hc

/-- **A task decides what the verdict says**, unless it is to stop or the check fails. -/
theorem decide_decides {work : Work} (hf : b.Fits p.width n back) (hr : work.region.Lies n back)
    (hn : n ≤ limit32) (table : Array Scalar) (w : Watch) :
    Decides check (p.verdict (p.plot b work.halved work.region)) w
      ((decide p (Watch.shouldStop check) b table work).runFrom w) := by
  cases work with
  | split slot r => exact decideSplit_decides hf hr hn table w
  | halve slot r =>
    have hverdict : p.verdict (p.plot b true r) =
        .ok (if r.size ≤ p.settings.maxPerLeaf then .leaf .arbitrarySplit else .cut) := rfl
    change Decides check (p.verdict (p.plot b true r)) w _
    rw [hverdict]
    simp only [decide, decideHalve, runFrom_bind]
    rcases ask_cases check w with ⟨w', heq, hw', why⟩ | ⟨w', heq, hw', hw⟩ | ⟨m, text, w', hc, heq⟩
    · rw [heq]
      exact .stopped hw' why
    · rw [heq]
      by_cases hsize : r.size ≤ p.settings.maxPerLeaf
      · simp only [Bool.false_eq_true, if_false, if_pos hsize]
        exact decides_pure hw hw' rfl
      · simp only [Bool.false_eq_true, if_false, if_neg hsize]
        exact decides_pure hw hw' rfl
    · rw [heq]
      exact .failed hc

/-- A task of a build that is to stop decides so, whatever the buffers hold. -/
theorem decide_of_aborted (p : Plan) (check : Check) (b : Buffers) (table : Array Scalar)
    (work : Work) (hw : w.aborted = true) :
    (decide p (Watch.shouldStop check) b table work).runFrom w = (.ok (.stop, table), w) := by
  cases work with
  | split slot r =>
    simp only [decide, decideSplit, runFrom_bind, ask_of_aborted check hw]
    rfl
  | halve slot r =>
    simp only [decide, decideHalve, runFrom_bind, ask_of_aborted check hw]
    rfl

end Task

end BoxTree

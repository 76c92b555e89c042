import BoxTree.Proofs.Build.Splits
import BoxTree.Proofs.Growth.Pieces
import BoxTree.Proofs.Tree.Shapes
/-!
# Two builds over the same boxes

The root plots of builds over the same finite boxes are twins, in whatever order the boxes are given
and on however many threads the builds run. When both builds are complete their trees therefore have
one shape and one set of counters, but for the count of chunks (`Builder.Built.twins`).
-/

namespace BoxTree

/-- Settings that search in the same way over a number of boxes and judge alike what is found. They
may share out the work between threads differently. -/
structure Settings.Akin (s s' : Settings) (n : Nat) : Prop where
  search : s.search n = s'.search n
  leafThreshold : s.leafThreshold = s'.leafThreshold
  maxPerLeaf : s.maxPerLeaf = s'.maxPerLeaf
  intersectionCost : s.intersectionCost = s'.intersectionCost

namespace Builder

variable {s s' : Settings} {builder builder' result result' : Builder} {boxes boxes' : List Box}
  {tree tree' : Tree} {t t' : Growth} {places places' : List Nat} {p p' : Plan}
  {platform platform' : Platform}

/-- Akin settings make akin plans. -/
theorem akin_of_plan (hs : s.Akin s' boxes.length) (h : plan s platform boxes = .ok p)
    (h' : plan s' platform' boxes = .ok p') : p.Akin p' := by
  obtain ⟨hsettings, hsearch, -⟩ := plan_eq h
  obtain ⟨hsettings', hsearch', -⟩ := plan_eq h'
  constructor
  · rw [hsearch, hsearch', hs.search]
  · rw [hsettings, hsettings', hs.leafThreshold]
  · rw [hsettings, hsettings', hs.maxPerLeaf]
  · rw [hsettings, hsettings', hs.intersectionCost]

/-- Plans for as many boxes are alike. -/
theorem like_of_plan (hlen : boxes.length = boxes'.length) (h : plan s platform boxes = .ok p)
    (h' : plan s platform' boxes' = .ok p') : p.Like p' := by
  obtain ⟨hsettings, hsearch, hnested, hpieces, -⟩ := plan_eq h
  obtain ⟨hsettings', hsearch', hnested', hpieces', -⟩ := plan_eq h'
  have hsame : p.search = p'.search := by rw [hsearch, hsearch', hlen]
  refine ⟨hsettings.trans hsettings'.symm, hsame, ?_, ?_⟩
  · rw [hnested, hnested', hsame, hlen]
  · exact Except.ok.inj (hpieces.symm.trans hpieces')

/-- Plans that are alike need the second buffer together. -/
theorem needsBack_eq_of_like (h : p.Like p') (n : Nat) : needsBack p n = needsBack p' n := by
  simp only [needsBack, h.search, h.nested, h.settings]

/-- The items of a root plot hold the boxes. -/
theorem map_box_rootStock (p : Plan) (boxes : List Box) :
    ((rootStock p boxes).order.map Item.box).Perm boxes := by
  have h := (order_rootStock p boxes).map Item.box
  rwa [map_box_ofBoxes] at h

/-- **The root plots over the same boxes are twins.** -/
theorem root_twins (p p' : Plan) (back back' : Bool) (hperm : boxes.Perm boxes')
    (hfinite : ∀ b ∈ boxes, b.Finite) (hn : boxes.length ≤ limit32) :
    (root p boxes).Twins p p' back back' boxes.length (root p' boxes') where
  level := ⟨rfl, hperm.length_eq, rfl⟩
  halved := rfl
  left := root_ordered p back boxes
  right := hperm.length_eq ▸ root_ordered p' back' boxes'
  tame := (ofBoxes_tame hfinite hn).perm (order_rootStock p boxes).symm
  boxes _ := ((map_box_rootStock p boxes).trans hperm).trans (map_box_rootStock p' boxes').symm

/-- **The trees of the root plots over the same boxes match.** -/
theorem root_matches (hp : p.Akin p') (hu : p.Usable (needsBack p boxes.length))
    (hu' : p'.Usable (needsBack p' boxes'.length)) (hperm : boxes.Perm boxes')
    (hfinite : ∀ b ∈ boxes, b.Finite) (hn : boxes.length ≤ limit32)
    (h : Grows p (needsBack p boxes.length) (root p boxes) t)
    (h' : Grows p' (needsBack p' boxes'.length) (root p' boxes') t') :
    t.Matches Region.Level (fun _ _ => True)
      (p.settings.taskThreshold = p'.settings.taskThreshold) t' :=
  h.matches
    (R := Plot.Twins p p' (needsBack p boxes.length) (needsBack p' boxes'.length) boxes.length)
    (fun hq => Plan.move_twins hp hu hu' id hq) Plot.Twins.level (fun _ => trivial)
    (root_twins p p' _ _ hperm hfinite hn) h'

/-- **Complete builds over the same boxes** have trees of one shape and equal counters. Where the
same parts become jobs, they have as many chunks. -/
theorem Built.twins (h : Built builder platform boxes tree p t places result)
    (h' : Built builder' platform' boxes' tree' p' t' places' result') (hp : p.Akin p')
    (hperm : boxes.Perm boxes') (hfinite : ∀ b ∈ boxes, b.Finite) (hn : boxes.length ≤ limit32) :
    tree.shape = tree'.shape ∧
      { result.stats with chunks := 0 } = { result'.stats with chunks := 0 } ∧
      (p.settings.taskThreshold = p'.settings.taskThreshold → result.stats = result'.stats) := by
  have hmatch := root_matches hp h.usable h'.usable hperm hfinite hn h.grows h'.grows
  have hstats := hmatch.stats_eq fun _ _ => id
  refine ⟨h.grown.shape_eq h'.grown hmatch fun _ _ => id, ?_, fun htask => ?_⟩
  · rw [h.result, h'.result, hstats]
  · rw [h.result, h'.result, hstats, hmatch.jobs_eq htask]

end Builder

end BoxTree

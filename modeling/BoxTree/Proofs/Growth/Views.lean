import BoxTree.Proofs.Growth.Performing
/-!
# Views of the object buffers

A task takes hold of the object buffers through **views**, ranges of single arrays on one side.
`Work.searched` lists those of a search, and `Decision.views` those of carrying out a decision. They
lie inside the region a task works on (`Work.views_within`), so that none of them can fail, and what
a task decides and does depends on the buffers through them alone (`Task.decide_congr`,
`Effect.perform_congr`).
-/

namespace BoxTree

open Buffers

/-- A view of the object buffers. -/
structure View where
  side : Side
  array : Nat
  first : Nat
  last : Nat

namespace View

/-- The items of a view, where it can be taken. -/
def items (v : View) (b : Buffers) : Except Fault (Array Item) :=
  b.view v.side v.array v.first v.last

/-- A view inside a region, of one of a number of arrays, on the back side only where there is a
second buffer. -/
structure Within (v : View) (r : Region) (width : Nat) (back : Bool) : Prop where
  first_le : r.first ≤ v.first
  le : v.first ≤ v.last
  le_last : v.last ≤ r.last
  array : v.array < width
  side : v.side = .back → back = true

variable {v : View} {r : Region} {b b' : Buffers} {width n : Nat} {back : Bool}

theorem Within.items_eq (h : v.Within r width back) (hf : b.Fits width n back) (hl : r.last ≤ n) :
    v.items b = .ok (b.part v.side v.array v.first v.last).toArray :=
  hf.view_eq h.side h.array h.le (h.le_last.trans hl)

/-- Buffers that show the same through a view have the same part there. -/
theorem Within.part_eq (h : v.Within r width back) (hf : b.Fits width n back)
    (hf' : b'.Fits width n back) (hl : r.last ≤ n) (hsame : v.items b' = v.items b) :
    b'.part v.side v.array v.first v.last = b.part v.side v.array v.first v.last := by
  rw [h.items_eq hf hl, h.items_eq hf' hl] at hsame
  exact List.toArray_inj (Except.ok.inj hsame)

end View

namespace Plan

/-- The views of all arrays on a region. -/
def across (p : Plan) (r : Region) (s : Side) : List View :=
  (List.range p.width).map fun array => ⟨s, array, r.first, r.last⟩

end Plan

/-- The views that the search for a split takes. -/
def Work.searched (p : Plan) : Work → List View
  | split _ r => p.across r r.side
  | halve _ _ => []

/-- The views that carrying out a decision about a region takes. -/
def Decision.views (p : Plan) (back : Bool) (r : Region) : Decision → List View
  | .stop | .giveUp => []
  | .leaf _ =>
    match r.side with
    | .front => []
    | .back => [⟨.back, 0, r.first, r.last⟩, ⟨.front, 0, r.first, r.last⟩]
  | .divide _ => p.across r r.side ++ if p.flips back r then p.across r r.side.other else []
  | .cut =>
    let mid := r.first + r.size / 2
    [⟨r.side, 0, r.first, mid⟩, ⟨r.side, 0, mid, r.last⟩]

variable {p : Plan} {r : Region} {b b' : Buffers} {s : Side} {w : Work} {d : Decision} {e : Effect}
  {n array : Nat} {back : Bool} {v : View} {σ : Type}

namespace Plan

theorem mem_across (p : Plan) (r : Region) (s : Side) (h : array < p.width) :
    ⟨s, array, r.first, r.last⟩ ∈ p.across r s :=
  List.mem_map.2 ⟨array, List.mem_range.2 h, rfl⟩

theorem across_within (hle : r.first ≤ r.last) (hs : s = .back → back = true)
    (hv : v ∈ p.across r s) : v.Within r p.width back := by
  obtain ⟨array, harray, rfl⟩ := List.mem_map.1 hv
  exact ⟨Nat.le_refl _, hle, Nat.le_refl _, List.mem_range.1 harray, hs⟩

end Plan

theorem Work.searched_within (hr : w.region.Lies n back) (hv : v ∈ w.searched p) :
    v.Within w.region p.width back := by
  cases w with
  | split _ r => exact Plan.across_within hr.le hr.side hv
  | halve _ r => cases hv

theorem Decision.views_within (hp : p.Usable back) (hr : r.Lies n back)
    (hv : v ∈ d.views p back r) : v.Within r p.width back := by
  obtain ⟨hle, -, hside⟩ := hr
  have hpos := p.width_pos
  cases d with
  | stop => cases hv
  | giveUp => cases hv
  | leaf reason =>
    simp only [views] at hv
    split at hv
    · cases hv
    · rename_i hback
      rcases List.mem_pair.1 hv with rfl | rfl
      · exact ⟨Nat.le_refl _, hle, Nat.le_refl _, hpos, fun _ => hside hback⟩
      · exact ⟨Nat.le_refl _, hle, Nat.le_refl _, hpos, nofun⟩
  | divide s =>
    rcases List.mem_append.1 hv with hv | hv
    · exact Plan.across_within hle hside hv
    · split at hv
      · rename_i hflips
        exact Plan.across_within hle (fun _ => hp.back_of_flips hflips) hv
      · cases hv
  | cut =>
    have hmid : r.first + r.size / 2 ≤ r.last := by
      rw [Region.size]
      omega
    rcases List.mem_pair.1 hv with rfl | rfl
    · exact ⟨Nat.le_refl _, Nat.le_add_right _ _, hmid, hpos, hside⟩
    · exact ⟨Nat.le_add_right _ _, hmid, Nat.le_refl _, hpos, hside⟩

/-! ## Reading -/

/-- **A task decides by the views of its search**, whatever else the buffers hold. -/
theorem Task.decide_congr (stop : Asking σ Bool) (table : Array Scalar)
    (h : ∀ v ∈ w.searched p, v.items b' = v.items b) :
    Task.decide p stop b' table w = Task.decide p stop b table w := by
  cases w with
  | halve slot r => rfl
  | split slot r =>
    have hitems : ∀ array < p.width, Plan.items b' r array = Plan.items b r array :=
      fun array ha => congrArg (Except.map Array.toList) (h _ (p.mem_across r r.side ha))
    have hfind : p.findSplit stop b' r table = p.findSplit stop b r table := by
      unfold Plan.findSplit
      split
      · rename_i hexact
        have hwidth : p.width = 3 := by rw [Plan.width, hexact]
        simp only [Plan.sortedItems, hitems 0 (by omega), hitems 1 (by omega), hitems 2 (by omega)]
      · simp only [hitems 0 p.width_pos]
    simp only [Task.decide, Task.decideSplit, hfind]

/-- Buffers that show the same on a region have the same items there. -/
theorem Plan.stock_congr (hf : b.Fits p.width n back) (hf' : b'.Fits p.width n back)
    (hr : r.Lies n back) (h : ∀ v ∈ p.across r r.side, v.items b' = v.items b) :
    p.stock b' r = p.stock b r := by
  have hpart : ∀ array < p.width,
      b'.part r.side array r.first r.last = b.part r.side array r.first r.last := by
    intro array ha
    have hv := p.mem_across r r.side ha
    exact (across_within hr.le hr.side hv).part_eq hf hf' hr.last_le (h _ hv)
  cases hsearch : p.search with
  | exact =>
    have hwidth : p.width = 3 := by rw [Plan.width, hsearch]
    rw [stock_exact hsearch, stock_exact hsearch, hpart 0 (by omega), hpart 1 (by omega),
      hpart 2 (by omega)]
  | binning => rw [stock_binning hsearch, stock_binning hsearch, hpart 0 p.width_pos]

namespace Effect

/-- The same effect on other buffers. -/
def on (e : Effect) (b : Buffers) : Effect := { e with buffers := b }

theorem branchHere_on (e : Effect) (b : Buffers) (slot : Nat) (r left right : Region)
    (work : Nat → Region → Work) :
    (e.on b).branchHere slot r left right work =
      (e.branchHere slot r left right work).map (·.on b) := by
  simp only [branchHere, on, map_bind_eq]
  rfl

theorem branchApart_on (e : Effect) (b : Buffers) (slot : Nat) (r left right : Region) :
    (e.on b).branchApart slot r left right = (e.branchApart slot r left right).map (·.on b) := by
  simp only [branchApart, on, map_bind_eq]
  rfl

/-- Settling a region changes nothing but the buffers. -/
theorem leaf_on (slot : Nat) (reason : LeafReason)
    (h : e.buffers.settle r.side r.first r.last = .ok b) :
    (e.leaf slot r reason).map (·.on .released) =
      (e.on .released).leaf slot { r with side := .front } reason := by
  simp only [leaf, h, ofFault, ok_mapError, ok_bind, map_bind_eq]
  rfl

theorem on_map (x : Except Failure Effect) (b : Buffers) :
    (x.map (·.on b)).map (·.on .released) = x.map (·.on .released) := by
  cases x <;> rfl

/-- What is left to do about a division does not depend on the buffers. -/
theorem divide_on {slot : Nat} {s : Split} {halves : Halves} {side : Side} {b₁ b₁' : Buffers}
    (h : p.partition e.buffers r s = .ok (b₁, halves, side))
    (h' : p.partition b r s = .ok (b₁', halves, side)) :
    ((e.on b).divide p slot r s).map (·.on .released) =
      (e.divide p slot r s).map (·.on .released) := by
  simp only [divide, on, h, h', ofFault, ok_mapError, ok_bind]
  generalize r.before _ _ side = left
  generalize r.after _ _ side = right
  by_cases hdegenerate : halves.isDegenerate = true
  · rw [if_pos hdegenerate, if_pos hdegenerate]
    rfl
  · rw [if_neg hdegenerate, if_neg hdegenerate]
    by_cases hlarge : (decide (p.settings.taskThreshold ≤ left.size) &&
        decide (p.settings.taskThreshold ≤ right.size)) = true
    · rw [if_pos hlarge, if_pos hlarge]
      have hapart := (e.on b₁).branchApart_on b₁' slot r left right
      exact (congrArg _ hapart).trans (on_map _ b₁')
    · rw [if_neg hlarge, if_neg hlarge]
      have hhere := (e.on b₁).branchHere_on b₁' slot r left right .split
      exact (congrArg _ hhere).trans (on_map _ b₁')

/-- A division depends on the items of its region. -/
theorem divide_congr (hp : p.Usable back) (hf : e.buffers.Fits p.width n back)
    (hf' : b.Fits p.width n back) (hlies : r.Lies n back) (hc : (p.stock e.buffers r).Coherent)
    (hstock : p.stock b r = p.stock e.buffers r) (slot : Nat) (s : Split) :
    ((e.on b).divide p slot r s).map (·.on .released) =
      (e.divide p slot r s).map (·.on .released) := by
  have hc' := hc
  rw [← hstock] at hc'
  -- both partitions are dealt from the same items, so that they end in the same way
  rcases Plan.partition_eq (s := s) hp hf' hlies hc' with
    ⟨f', hdealt', heq'⟩ | ⟨stock', halves', b₁', hdealt', heq', -⟩
  · rw [hstock] at hdealt'
    rcases Plan.partition_eq (s := s) hp hf hlies hc with
      ⟨f, hdealt, heq⟩ | ⟨stock, halves, b₁, hdealt, -, -⟩
    · cases hdealt.symm.trans hdealt'
      simp only [divide, on, heq, heq', ofFault, error_mapError, error_bind]
    · cases hdealt.symm.trans hdealt'
  · rw [hstock] at hdealt'
    rcases Plan.partition_eq (s := s) hp hf hlies hc with
      ⟨f, hdealt, -⟩ | ⟨stock, halves, b₁, hdealt, heq, -⟩
    · cases hdealt.symm.trans hdealt'
    · cases hdealt.symm.trans hdealt'
      exact divide_on heq heq'

/-- A cut depends on the items it looks at to find the boxes of both parts. -/
theorem cut_congr (hp : p.Usable back) (hf : e.buffers.Fits p.width n back)
    (hf' : b.Fits p.width n back) (hlies : r.Lies n back)
    (h : ∀ v ∈ Decision.cut.views p back r, v.items b = v.items e.buffers) (slot : Nat) :
    ((e.on b).cut slot r).map (·.on .released) = (e.cut slot r).map (·.on .released) := by
  have hx : r.first ≤ r.first + r.size / 2 := Nat.le_add_right _ _
  have hy : r.first + r.size / 2 ≤ r.last := by
    have := hlies.le
    rw [Region.size]
    omega
  have hpart : ∀ v ∈ Decision.cut.views p back r,
      b.part v.side v.array v.first v.last = e.buffers.part v.side v.array v.first v.last :=
    fun v hv => (Decision.views_within hp hlies hv).part_eq hf hf' hlies.last_le (h v hv)
  have hleft := hpart _ List.mem_cons_self
  have hright := hpart _ (List.mem_cons_of_mem _ List.mem_cons_self)
  simp only at hleft hright
  simp only [cut, Plan.extentOf, on, ofFault]
  rw [hf.view_eq hlies.side hf.pos hx (hy.trans hlies.last_le),
    hf.view_eq hlies.side hf.pos hy hlies.last_le,
    hf'.view_eq hlies.side hf.pos hx (hy.trans hlies.last_le),
    hf'.view_eq hlies.side hf.pos hy hlies.last_le, hleft, hright]
  simp only [ok_map, ok_mapError, ok_bind]
  exact (congrArg _ (e.branchHere_on b _ _ _ _ _)).trans (on_map _ b)

/-- **What carrying out a verdict comes to depends on its views**, whatever else the buffers
hold. -/
theorem perform_congr (hp : p.Usable back) (hf : e.buffers.Fits p.width n back)
    (hf' : b.Fits p.width n back) (hq : (p.plot e.buffers w.halved w.region).Sound p back n)
    (hv : p.verdict (p.plot e.buffers w.halved w.region) = .ok d)
    (h : ∀ v ∈ d.views p back w.region, v.items b = v.items e.buffers) :
    (Effect.perform p (e.on b) w d).map (·.on .released) =
      (Effect.perform p e w d).map (·.on .released) := by
  have hlies : w.region.Lies n back := hq.lies
  cases d with
  | stop => rfl
  | giveUp => rfl
  | leaf reason =>
    have hsettle := hf.settle_eq hlies.side hlies.le hlies.last_le
    have hsettle' := hf'.settle_eq hlies.side hlies.le hlies.last_le
    rw [perform, perform, leaf_on (e := e) w.slot reason hsettle,
      leaf_on (e := e.on b) w.slot reason hsettle']
    rfl
  | divide s =>
    have hcoherent := hq.coherent (Plan.whole_of_verdict hv nofun nofun)
    have hstock := Plan.stock_congr hf hf' hlies fun v hv => h v (List.mem_append_left _ hv)
    exact divide_congr hp hf hf' hlies hcoherent hstock w.slot s
  | cut => exact cut_congr hp hf hf' hlies h w.slot

end Effect

end BoxTree

import BoxTree.Proofs.Growth.Twins
/-!
# Exact builds and their threads

The sorted arrays of an exact build are searched and partitioned to the same result on any number of
threads, and every partition changes the side of the buffers. Plans that differ in their threads
alone therefore grow one tree, up to which of its parts are built apart (`Grows.matches_exact`).
-/

namespace BoxTree

variable {p p' : Plan} {back back' : Bool} {n : Nat} {q q' : Plot} {m m' : Move} {t t' : Growth}

/-- One sound plot. -/
def Plot.Same (p : Plan) (back : Bool) (n : Nat) (q q' : Plot) : Prop :=
  q = q' ∧ q.Sound p back n

namespace Plan

/-- What is decided about sorted arrays does not depend on threads. -/
theorem Akin.verdict_eq (hp : p.Akin p') {v : PerAxis (List Item)} (hstock : q.stock = .sorted v) :
    p.verdict q = p'.verdict q := by
  have hfound : p.found q.region q.stock = p'.found q.region q.stock := by
    rw [hstock]
    rfl
  have hjudged : p.judged q.region = p'.judged q.region := by
    funext found
    simp only [judged, hp.cost_eq, hp.maxPerLeaf]
  rw [verdict, verdict, hfound, hjudged, hp.maxPerLeaf, hp.leafThreshold]

/-- **Plans that differ in their threads make the same exact moves.** -/
theorem move_exact (hp : p.Akin p') (hu : p.Usable back) (hexact : p.search = .exact)
    (hq : q.Same p back n q') (h : p.move back q = .ok m) (h' : p'.move back' q' = .ok m') :
    Move.Matches (Plot.Same p back n) False q q' m m' := by
  obtain ⟨rfl, hsound⟩ := hq
  have hnext := move_sound hu hsound h
  have hsuits := hsound.suits
  rw [hexact] at hsuits
  obtain ⟨v, hstock⟩ := hsuits.exists_sorted
  have hflips : p.flips back q.region = true := by simp only [flips, hexact]
  have hflips' : p'.flips back' q.region = true := by simp only [flips, ← hp.search, hexact]
  have hside : p.dealtSide back q.region = p'.dealtSide back' q.region := by
    rw [dealtSide, dealtSide, hflips, hflips']
  obtain ⟨d, hv, ha⟩ := bind_eq_ok_iff.1 h
  obtain ⟨d', hv', ha'⟩ := bind_eq_ok_iff.1 h'
  rw [← hp.verdict_eq hstock, hv] at hv'
  cases hv'
  cases d with
  | stop => exact absurd hv verdict_ne_stop
  | leaf reason =>
    cases ha
    cases ha'
    exact .leaf reason
  | giveUp =>
    cases ha
    cases ha'
    exact .halve ⟨rfl, hnext.1⟩
  | cut =>
    cases ha
    cases ha'
    exact .fork (fun he => he.elim) ⟨rfl, hnext.1⟩ ⟨rfl, hnext.2.1⟩
  | divide s =>
    rw [act, hstock] at ha ha'
    obtain ⟨⟨stock, halves⟩, hd, rfl⟩ := map_eq_ok_iff.1 ha
    obtain ⟨dealt', hd', rfl⟩ := map_eq_ok_iff.1 ha'
    -- neither partition looks at its plan
    cases hd.symm.trans hd'
    simp only [divided, hflips, hflips', hside, if_true] at hnext ⊢
    split
    · rename_i hboth
      rw [if_pos hboth] at hnext
      exact .halve ⟨rfl, hnext.1⟩
    · rename_i hboth
      rw [if_neg hboth] at hnext
      exact .fork (fun he => he.elim) ⟨rfl, hnext.1⟩ ⟨rfl, hnext.2.1⟩

end Plan

/-- **Plans that differ in their threads grow one exact tree**, up to the parts built apart. -/
theorem Grows.matches_exact (hp : p.Akin p') (hu : p.Usable back) (hexact : p.search = .exact)
    (hq : q.Sound p back n) (h : Grows p back q t) (h' : Grows p' back' q t') :
    t.Matches Eq Eq False t' :=
  h.matches (R := Plot.Same p back n) (fun hq => Plan.move_exact hp hu hexact hq)
    (fun hq => congrArg Plot.region hq.1) (fun hq => congrArg (fun q => q.stock.order) hq.1)
    ⟨rfl, hq⟩ h'

end BoxTree

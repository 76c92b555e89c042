import BoxTree.Proofs.Growth.Grows
/-!
# Trees that match

Two builds are compared move by move. Where a relation between their plots is kept by all moves
(`Move.Matches`), the trees that grow on related plots match: they have the same branches, with
related regions and items (`Grows.matches`). Trees whose ranges and depths agree have the same
counters, and as many parts built apart where the same parts are.
-/

namespace BoxTree

/-- Moves of two plots that do the same and leave related plots. Where `E` holds they also build
the same parts apart. -/
inductive Move.Matches (R : Plot → Plot → Prop) (E : Prop) (q q' : Plot) : Move → Move → Prop where
  | leaf (reason : LeafReason) : Matches R E q q' (.leaf reason) (.leaf reason)
  | halve {stock stock' : Stock} (h : R ⟨q.region, true, stock⟩ ⟨q'.region, true, stock'⟩) :
    Matches R E q q' (.halve stock) (.halve stock')
  | fork {apart apart' : Bool} {left right left' right' : Plot} (ha : E → apart = apart')
      (hl : R left left') (hr : R right right') :
    Matches R E q q' (.fork apart left right) (.fork apart' left' right')

/-- Trees with the same branches and reasons, with related regions and items. Where `E` holds they
also have the same parts built apart. -/
inductive Growth.Matches (P : Region → Region → Prop) (I : List Item → List Item → Prop)
    (E : Prop) : Growth → Growth → Prop where
  | leaf {r r' : Region} {reason : LeafReason} {items items' : List Item} (hr : P r r')
      (hi : I items items') : Matches P I E (.leaf r reason items) (.leaf r' reason items')
  | fork {r r' : Region} {apart apart' : Bool} {left right left' right' : Growth} (h : P r r')
      (ha : E → apart = apart') (hl : Matches P I E left left')
      (hr : Matches P I E right right') :
    Matches P I E (.fork r apart left right) (.fork r' apart' left' right')

/-- Regions over one range at one depth. -/
structure Region.Level (r r' : Region) : Prop where
  first : r.first = r'.first
  last : r.last = r'.last
  depth : r.depth = r'.depth

variable {p p' : Plan} {back back' : Bool} {q q' : Plot} {t t' : Growth} {m m' : Move}
  {R : Plot → Plot → Prop} {P : Region → Region → Prop} {I : List Item → List Item → Prop}
  {E : Prop}

theorem Region.Level.size_eq {r r' : Region} (h : r.Level r') : r.size = r'.size := by
  rw [size, size, h.first, h.last]

/-- **Trees match where moves do.** -/
theorem Grows.matches
    (hmove : ∀ {q q' m m'}, R q q' → p.move back q = .ok m → p'.move back' q' = .ok m' →
      Move.Matches R E q q' m m')
    (hP : ∀ {q q'}, R q q' → P q.region q'.region)
    (hI : ∀ {q q'}, R q q' → I q.stock.order q'.stock.order) (hq : R q q')
    (h : Grows p back q t) (h' : Grows p' back' q' t') : t.Matches P I E t' := by
  induction h generalizing q' t' with
  | leaf hm =>
    cases h' with
    | leaf hm' =>
      cases hmove hq hm hm'
      exact .leaf (hP hq) (hI hq)
    | halve hm' _ => cases hmove hq hm hm'
    | fork hm' _ _ => cases hmove hq hm hm'
  | halve hm _ ih =>
    cases h' with
    | leaf hm' => cases hmove hq hm hm'
    | halve hm' ht' =>
      cases hmove hq hm hm' with
      | halve hnext => exact ih hnext ht'
    | fork hm' _ _ => cases hmove hq hm hm'
  | fork hm _ _ ihl ihr =>
    cases h' with
    | leaf hm' => cases hmove hq hm hm'
    | halve hm' _ => cases hmove hq hm hm'
    | fork hm' hl' hr' =>
      cases hmove hq hm hm' with
      | fork ha hl hr => exact .fork (hP hq) ha (ihl hl hl') (ihr hr hr')

namespace Growth.Matches

/-- Trees over the same ranges at the same depths have the same counters. -/
theorem stats_eq (h : t.Matches P I E t') (hP : ∀ r r', P r r' → r.Level r') :
    t.stats = t'.stats := by
  induction h with
  | leaf hr _ => rw [stats, stats, (hP _ _ hr).depth, (hP _ _ hr).size_eq]
  | fork _ _ _ _ ihl ihr => rw [stats, stats, ihl, ihr]

theorem nodes_eq (h : t.Matches P I E t') : t.nodes = t'.nodes := by
  induction h with
  | leaf _ _ => rfl
  | fork _ _ _ _ ihl ihr => rw [nodes, nodes, ihl, ihr]

theorem jobs_eq (h : t.Matches P I E t') (hE : E) : t.jobs = t'.jobs := by
  induction h with
  | leaf _ _ => rfl
  | fork _ ha _ _ ihl ihr => rw [jobs, jobs, ihl, ihr, ha hE]

/-- Trees whose leaves hold the same items hold the same items. -/
theorem items_eq (h : t.Matches P Eq E t') : t.items = t'.items := by
  induction h with
  | leaf _ hi => exact hi
  | fork _ _ _ _ ihl ihr => rw [items, items, ihl, ihr]

end Growth.Matches

end BoxTree

import BoxTree.Proofs.Growth.Depths
import BoxTree.Proofs.Growth.Room
import BoxTree.Proofs.Growth.Twins
/-!
# Cutting ranges into pieces

Work on nested threads is cut into pieces, and fails where objects and pieces are too many to be
counted together. This depends on the size of a range alone. So twins have a move or fail together
(`Plot.Twins.exists_move`), and since parts are smaller than the plot they come from, a plot that
has a move has a whole tree (`exists_grows_of_move`).
-/

namespace BoxTree

variable {p : Plan} {back : Bool} {n count tasks size size' : Nat} {q q' : Plot} {m : Move}
  {r : Region} {s : Split} {stock : Stock} {t : Growth}

namespace Plan

/-- Whether ranges of a size can be searched: objects and pieces can be counted together. -/
def CanSearch (p : Plan) (size : Nat) : Prop :=
  p.search = .binning → 2 ≤ size → p.usesNested size p.settings.parallelBinning = true →
    1 < p.pieces → size + p.pieces ≤ limit64

/-- Whether ranges of a size can be partitioned. -/
def CanPart (p : Plan) (back : Bool) (size : Nat) : Prop :=
  p.search = .binning → (p.usesNested size p.settings.parallelPartition && back) = true →
    size + max p.pieces 1 ≤ limit64

theorem usesNested_mono {threshold : Nat} (hle : size' ≤ size)
    (h : p.usesNested size' threshold = true) : p.usesNested size threshold = true := by
  rw [usesNested, Bool.and_eq_true, decide_eq_true_eq] at h ⊢
  exact ⟨h.1, h.2.trans hle⟩

theorem CanSearch.mono (h : p.CanSearch size) (hle : size' ≤ size) : p.CanSearch size' :=
  fun hsearch htwo hnested hpieces =>
    (Nat.add_le_add_right hle _).trans
      (h hsearch (htwo.trans hle) (usesNested_mono hle hnested) hpieces)

theorem CanPart.mono (h : p.CanPart back size) (hle : size' ≤ size) : p.CanPart back size' := by
  intro hsearch huses
  rw [Bool.and_eq_true] at huses
  refine (Nat.add_le_add_right hle _).trans (h hsearch ?_)
  rw [usesNested_mono hle huses.1, huses.2]
  rfl

/-- **A stock is searched** where ranges of its size can be. -/
theorem found_ok_iff (hsuits : stock.Suits p.search) (hlen : stock.order.length = r.size) :
    (∃ found, p.found r stock = .ok found) ↔ p.CanSearch r.size := by
  cases hsearch : p.search with
  | exact =>
    rw [hsearch] at hsuits
    obtain ⟨v, rfl⟩ := hsuits.exists_sorted
    exact ⟨fun _ hbinning => (by cases hsearch.symm.trans hbinning), fun _ => ⟨_, rfl⟩⟩
  | binning =>
    rw [hsearch] at hsuits
    obtain ⟨items, rfl⟩ := hsuits.exists_single
    change items.length = r.size at hlen
    simp only [Plan.found]
    rw [CanSearch, ← hlen, forall_prop_of_true hsearch]
    split
    · rename_i hfew
      exact ⟨fun _ htwo => absurd hfew (Nat.not_lt_of_le htwo), fun _ => ⟨_, rfl⟩⟩
    · rename_i hmany
      rw [forall_prop_of_true (Nat.le_of_not_lt hmany),
        ← Bins.gather_ok_iff (p.platform.bins r.first r.last) r.extent.centers]
      constructor
      · rintro ⟨found, hfound⟩
        obtain ⟨bins, hbins, -⟩ := map_eq_ok_iff.1 hfound
        exact ⟨bins, hbins⟩
      · rintro ⟨bins, hbins⟩
        rw [hbins]
        exact ⟨_, rfl⟩

/-- **A stock is partitioned** where ranges of its size can be. -/
theorem dealt_ok_iff (hsuits : stock.Suits p.search) (hlen : stock.order.length = r.size) :
    (∃ dealt, p.dealt back r s stock = .ok dealt) ↔ p.CanPart back r.size := by
  cases hsearch : p.search with
  | exact =>
    rw [hsearch] at hsuits
    obtain ⟨v, rfl⟩ := hsuits.exists_sorted
    exact ⟨fun _ hbinning => (by cases hsearch.symm.trans hbinning), fun _ => ⟨_, rfl⟩⟩
  | binning =>
    rw [hsearch] at hsuits
    obtain ⟨items, rfl⟩ := hsuits.exists_single
    change items.length = r.size at hlen
    simp only [Plan.dealt]
    rw [CanPart, forall_prop_of_true hsearch, ← usesPieces, ← hlen]
    split
    · rename_i huses
      rw [forall_prop_of_true huses, ← subrangeSize_ok_iff]
      constructor
      · rintro ⟨dealt, hdealt⟩
        obtain ⟨size, hsize, -⟩ := map_eq_ok_iff.1 hdealt
        exact ⟨size, hsize⟩
      · rintro ⟨size, hsize⟩
        rw [hsize]
        exact ⟨_, rfl⟩
    · rename_i huses
      exact ⟨fun _ hu => absurd hu huses, fun _ => ⟨_, rfl⟩⟩

/-- A sound plot has a verdict unless it is to be searched and cannot be. -/
theorem verdict_ok_iff (hq : q.Sound p back n) : (∃ d, p.verdict q = .ok d) ↔
    (q.halved = false → p.settings.leafThreshold < q.region.size → q.region.depth < maxDepth →
      p.CanSearch q.region.size) := by
  unfold verdict
  split
  · rename_i hhalved
    exact ⟨fun _ hwhole => (by cases hwhole.symm.trans hhalved), fun _ => ⟨_, rfl⟩⟩
  · rename_i hwhole
    rw [forall_prop_of_true (by simpa using hwhole)]
    split
    · rename_i hsmall
      exact ⟨fun _ hlarge => absurd hsmall (Nat.not_le_of_lt hlarge), fun _ => ⟨_, rfl⟩⟩
    · rename_i hlarge
      rw [forall_prop_of_true (Nat.lt_of_not_le hlarge)]
      split
      · rename_i hdeep
        exact ⟨fun _ hshallow => absurd hdeep (Nat.not_le_of_lt hshallow), fun _ => ⟨_, rfl⟩⟩
      · rename_i hshallow
        rw [forall_prop_of_true (Nat.lt_of_not_le hshallow), ← found_ok_iff hq.suits hq.length]
        constructor
        · rintro ⟨d, hd⟩
          obtain ⟨found, hfound, -⟩ := map_eq_ok_iff.1 hd
          exact ⟨found, hfound⟩
        · rintro ⟨found, hfound⟩
          rw [hfound]
          exact ⟨_, rfl⟩

/-- A plot that is to be divided was searched. -/
theorem searched_of_divide (h : p.verdict q = .ok (.divide s)) :
    p.settings.leafThreshold < q.region.size ∧ q.region.depth < maxDepth := by
  unfold verdict at h
  split at h
  · split at h <;> cases h
  · split at h
    · cases h
    · rename_i hlarge
      split at h
      · cases h
      · rename_i hshallow
        exact ⟨Nat.lt_of_not_le hlarge, Nat.lt_of_not_le hshallow⟩

/-- A plot that is not halved forks by a division. -/
theorem exists_divide_of_fork {apart : Bool} {left right : Plot} (hwhole : q.halved = false)
    (hm : p.move back q = .ok (.fork apart left right)) : ∃ s, p.verdict q = .ok (.divide s) := by
  obtain ⟨d, hv, ha⟩ := bind_eq_ok_iff.1 hm
  cases d with
  | divide s => exact ⟨s, hv⟩
  | cut =>
    rcases verdict_cases hv with ⟨hhalved, -⟩ | ⟨-, -, hne⟩
    · cases hwhole.symm.trans hhalved
    · exact absurd rfl hne
  | stop => cases ha
  | leaf reason => cases ha
  | giveUp => cases ha

/-- Where a plot has a verdict, what is left to fail is a partition. -/
theorem exists_move_iff {d : Decision} (hq : q.Sound p back n) (hv : p.verdict q = .ok d) :
    (∃ m, p.move back q = .ok m) ↔ ∀ s, d = .divide s → p.CanPart back q.region.size := by
  rw [move, hv, ok_bind]
  cases d with
  | divide s =>
    have hpart : (∃ dealt, p.dealt back q.region s q.stock = .ok dealt) ↔
        p.CanPart back q.region.size := dealt_ok_iff hq.suits hq.length
    constructor
    · rintro ⟨m, hm⟩ s' -
      obtain ⟨dealt, hdealt, -⟩ := map_eq_ok_iff.1 hm
      exact hpart.1 ⟨dealt, hdealt⟩
    · intro hcan
      obtain ⟨dealt, hdealt⟩ := hpart.2 (hcan s rfl)
      rw [act, hdealt]
      exact ⟨_, rfl⟩
  | stop => exact ⟨fun _ s h => (by cases h), fun _ => ⟨_, rfl⟩⟩
  | leaf reason => exact ⟨fun _ s h => (by cases h), fun _ => ⟨_, rfl⟩⟩
  | giveUp => exact ⟨fun _ s h => (by cases h), fun _ => ⟨_, rfl⟩⟩
  | cut => exact ⟨fun _ s h => (by cases h), fun _ => ⟨_, rfl⟩⟩

end Plan

/-- Plans that treat every range in the same way. They may start from different extents and on
different platforms. -/
structure Plan.Like (p p' : Plan) : Prop where
  settings : p.settings = p'.settings
  search : p.search = p'.search
  nested : p.nested = p'.nested
  pieces : p.pieces = p'.pieces

namespace Plan.Like

variable {p' : Plan} (h : p.Like p')
include h

theorem symm : p'.Like p := ⟨h.settings.symm, h.search.symm, h.nested.symm, h.pieces.symm⟩

theorem akin : p.Akin p' :=
  ⟨h.search, congrArg _ h.settings, congrArg _ h.settings, congrArg _ h.settings⟩

theorem canSearch_iff (size : Nat) : p.CanSearch size ↔ p'.CanSearch size := by
  simp only [CanSearch, usesNested, h.search, h.nested, h.settings, h.pieces]

theorem canPart_iff (back : Bool) (size : Nat) : p.CanPart back size ↔ p'.CanPart back size := by
  simp only [CanPart, usesNested, h.search, h.nested, h.settings, h.pieces]

end Plan.Like

/-- **Twins under plans that are alike have a move together.** -/
theorem Plot.Twins.exists_move {p' : Plan} (hp : p.Like p') (hq : q.Twins p p' back back n q')
    (h : ∃ m, p.move back q = .ok m) : ∃ m', p'.move back q' = .ok m' := by
  obtain ⟨m, hm⟩ := h
  obtain ⟨d, hv, -⟩ := bind_eq_ok_iff.1 hm
  obtain ⟨d', hv'⟩ : ∃ d', p'.verdict q' = .ok d' := by
    have hsearch := (Plan.verdict_ok_iff hq.left.sound).1 ⟨d, hv⟩
    rw [hq.halved, hq.level.size_eq, hq.level.depth, hp.settings, hp.canSearch_iff] at hsearch
    exact (Plan.verdict_ok_iff hq.right.sound).2 hsearch
  have hpart := (Plan.exists_move_iff hq.left.sound hv).1 ⟨m, hm⟩
  rw [hq.level.size_eq] at hpart
  refine (Plan.exists_move_iff hq.right.sound hv').2 ?_
  rintro s' rfl
  cases Plan.verdict_agree hp.akin hq hv hv' with
  | @divide s _ _ => exact (hp.canPart_iff back _).1 (hpart s rfl)

/-- A plot whose range can be searched and partitioned, if it is not halved. -/
structure Plot.Able (p : Plan) (back : Bool) (n : Nat) (q : Plot) : Prop where
  sound : q.Sound p back n
  search : q.halved = false → p.CanSearch q.region.size
  part : q.halved = false → p.CanPart back q.region.size

/-- The parts of an able plot are able, being smaller. -/
theorem Plot.Able.passes (hp : p.Usable back) : p.Passes back (Plot.Able p back n) := by
  intro q m hq hm
  have hsound := Plan.move_sound hp hq.sound hm
  have hfollows := Plan.move_follows hm
  cases m with
  | leaf reason => trivial
  | halve stock => exact ⟨hsound.1, nofun, nofun⟩
  | fork apart left right =>
    obtain ⟨hl, hr, hforks⟩ := hsound
    obtain ⟨hleft, hright⟩ := hforks.size_le
    exact ⟨⟨hl, fun hw => (hq.search (hfollows.1 ▸ hw)).mono hleft,
      fun hw => (hq.part (hfollows.1 ▸ hw)).mono hleft⟩,
      ⟨hr, fun hw => (hq.search (hfollows.2 ▸ hw)).mono hright,
      fun hw => (hq.part (hfollows.2 ▸ hw)).mono hright⟩⟩

/-- Able plots have trees. -/
theorem Plot.Able.exists_grows (hp : p.Usable back) (hq : q.Able p back n) :
    ∃ t, Grows p back q t := by
  refine exists_grows_of hp (Plot.Able.passes hp) (fun q hs ha => ?_) hq.sound hq
  obtain ⟨d, hv⟩ := (Plan.verdict_ok_iff hs).2 fun hwhole _ _ => ha.search hwhole
  refine (Plan.exists_move_iff hs hv).2 ?_
  rintro s rfl
  exact ha.part (Plan.whole_of_verdict hv nofun nofun)

/-- A plot that forks is able: it was searched and partitioned, unless it is halved. -/
theorem Plot.able_of_fork {apart : Bool} {left right : Plot} (hq : q.Sound p back n)
    (hm : p.move back q = .ok (.fork apart left right)) : q.Able p back n where
  sound := hq
  search hwhole := by
    obtain ⟨s, hv⟩ := Plan.exists_divide_of_fork hwhole hm
    obtain ⟨hlarge, hshallow⟩ := Plan.searched_of_divide hv
    exact (Plan.verdict_ok_iff hq).1 ⟨_, hv⟩ hwhole hlarge hshallow
  part hwhole := by
    obtain ⟨s, hv⟩ := Plan.exists_divide_of_fork hwhole hm
    exact (Plan.exists_move_iff hq hv).1 ⟨_, hm⟩ s rfl

/-- **A plot that has a move has a tree.** -/
theorem exists_grows_of_move (hp : p.Usable back) (hq : q.Sound p back n)
    (hm : p.move back q = .ok m) : ∃ t, Grows p back q t := by
  cases m with
  | leaf reason => exact ⟨_, .leaf hm⟩
  | halve stock =>
    have hnext : Plot.Able p back n ⟨q.region, true, stock⟩ :=
      ⟨(Plan.move_sound hp hq hm).1, nofun, nofun⟩
    obtain ⟨t, ht⟩ := hnext.exists_grows hp
    exact ⟨t, .halve hm ht⟩
  | fork apart left right => exact (Plot.able_of_fork hq hm).exists_grows hp

end BoxTree

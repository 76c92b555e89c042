import BoxTree.Proofs.Growth.Grows
import BoxTree.Proofs.Growth.Performing
import Mathlib.Tactic.Abel
/-!
# Sketches

A build in progress is a tree whose lower parts are still missing. A **sketch** is that tree: every
node has the place where the build keeps it, a chunk and a slot, and a bare node has the plot on
which its subtree is still to grow. A step of a build replaces one bare node (`Grafts`), and
everything a build is known to keep is a property of sketches that grafting keeps.
-/

namespace BoxTree

open Buffers

/-- Where a build keeps a node. -/
structure Address where
  chunk : Nat
  slot : Nat
  deriving DecidableEq

/-- A tree in progress. -/
inductive Sketch where
  /-- A node whose subtree is still to be built. -/
  | bare (place : Address) (plot : Plot)
  | leaf (place : Address) (region : Region) (reason : LeafReason) (items : List Item)
  | fork (place : Address) (region : Region) (apart : Bool) (left right : Sketch)

namespace Sketch

/-- The place of the root. -/
def place : Sketch → Address
  | bare a _ => a
  | leaf a _ _ _ => a
  | fork a _ _ _ _ => a

/-- The places of all nodes, parents before children and left before right. -/
def places : Sketch → List Address
  | bare a _ => [a]
  | leaf a _ _ _ => [a]
  | fork a _ _ left right => a :: (left.places ++ right.places)

/-- The plots that are still to be built on, with their places. -/
def plots : Sketch → List (Address × Plot)
  | bare a q => [(a, q)]
  | leaf .. => []
  | fork _ _ _ left right => left.plots ++ right.plots

/-- The leaves that are built, with their items. -/
def leaves : Sketch → List (Region × List Item)
  | bare .. => []
  | leaf _ r _ items => [(r, items)]
  | fork _ _ _ left right => left.leaves ++ right.leaves

/-- The number of subtrees that are built apart. -/
def jobs : Sketch → Nat
  | bare .. => 0
  | leaf .. => 0
  | fork _ _ apart left right => left.jobs + right.jobs + (if apart then 1 else 0)

/-- What the nodes that are built add to the counters. -/
def stats : Sketch → Statistics
  | bare .. => 0
  | leaf _ r reason _ => .leafTally reason r.depth r.size
  | fork _ _ _ left right => .interiorTally + (left.stats + right.stats)

/-- What the parts of a sketch cover of the objects. -/
def Covers (first last : Nat) : Sketch → Prop
  | bare _ q => q.region.first = first ∧ q.region.last = last ∧ first ≤ last
  | leaf _ r _ _ => r.first = first ∧ r.last = last ∧ first ≤ last
  | fork _ _ _ left right => ∃ mid, left.Covers first mid ∧ right.Covers mid last

/-- The buffers hold the items of the bare plots, and those of the leaves in their final order. -/
def Holds (p : Plan) (b : Buffers) : Sketch → Prop
  | bare _ q => p.stock b q.region = q.stock
  | leaf _ r _ items => b.part .front 0 r.first r.last = items
  | fork _ _ _ left right => left.Holds p b ∧ right.Holds p b

/-- How a parent names its right child. -/
def childRef (apart : Bool) (right : Address) : ChildRef :=
  if apart then .chunk right.chunk else .here right.slot

/-- Where the children of a node are kept: behind it in its chunk, a right child that is apart as
the root of a chunk with a greater number. -/
structure Links (place : Address) (apart : Bool) (left right : Address) : Prop where
  left_chunk : left.chunk = place.chunk
  left_slot : place.slot < left.slot
  of_apart : apart = true → place.chunk < right.chunk ∧ right.slot = 0
  of_here : apart = false → right.chunk = place.chunk ∧ place.slot < right.slot

/-- The nodes that are built are written where they are kept, and the slots of the bare ones are
empty. -/
def Written (slot : Address → Option ChunkNode → Prop) : Sketch → Prop
  | bare a _ => slot a none
  | leaf a r _ _ => slot a (some ⟨r.extent.bounds, .leaf r.first r.last, r.depth⟩)
  | fork a r apart left right =>
    slot a (some
        ⟨r.extent.bounds, .interior left.place.slot (childRef apart right.place), r.depth⟩) ∧
      Links a apart left.place right.place ∧ left.Written slot ∧ right.Written slot

/-- The trees a sketch can still become. -/
inductive Becomes (p : Plan) (back : Bool) : Sketch → Growth → Prop where
  | bare {a : Address} {q : Plot} {t : Growth} (h : Grows p back q t) : Becomes p back (.bare a q) t
  | leaf {a : Address} {r : Region} {reason : LeafReason} {items : List Item} :
    Becomes p back (.leaf a r reason items) (.leaf r reason items)
  | fork {a : Address} {r : Region} {apart : Bool} {left right : Sketch} {l r' : Growth}
      (hl : Becomes p back left l) (hr : Becomes p back right r') :
    Becomes p back (.fork a r apart left right) (.fork r apart l r')

variable {p : Plan} {back : Bool} {n first last : Nat} {a : Address} {q : Plot}
  {new sk sk' : Sketch} {b b' : Buffers} {t : Growth}

@[simp] theorem stats_bare (a : Address) (q : Plot) : (bare a q).stats = 0 := rfl

@[simp] theorem stats_fork_bare (a b c : Address) (r : Region) (apart : Bool) (q q' : Plot) :
    (fork a r apart (bare b q) (bare c q')).stats = .interiorTally := by
  rw [stats, stats_bare, stats_bare, add_zero, add_zero]

theorem Covers.le (h : sk.Covers first last) : first ≤ last := by
  induction sk generalizing first last with
  | bare a q => exact h.2.2
  | leaf a r reason items => exact h.2.2
  | fork a r apart left right ihl ihr =>
    obtain ⟨mid, hl, hr⟩ := h
    exact (ihl hl).trans (ihr hr)

/-- Work beside what a sketch covers does not change what the buffers hold of it. -/
theorem Covers.holds_of_keeps {x y : Nat} (h : sk.Covers first last) (hk : Keeps x y b b')
    (hout : last ≤ x ∨ y ≤ first) (hb : sk.Holds p b) : sk.Holds p b' := by
  induction sk generalizing first last with
  | bare a q =>
    obtain ⟨hfirst, hlast, -⟩ := h
    have hpart : ∀ array, b'.part q.region.side array q.region.first q.region.last =
        b.part q.region.side array q.region.first q.region.last :=
      fun array => hk _ _ _ _ (by omega)
    rw [Holds] at hb ⊢
    rw [← hb]
    unfold Plan.stock
    simp only [hpart]
  | leaf a r reason items =>
    obtain ⟨hfirst, hlast, -⟩ := h
    exact (hk _ _ _ _ (by omega)).trans hb
  | fork a r apart left right ihl ihr =>
    obtain ⟨mid, hl, hr⟩ := h
    have := hl.le
    have := hr.le
    exact ⟨ihl hl (by omega) hb.1, ihr hr (by omega) hb.2⟩

theorem Written.imp {slot slot' : Address → Option ChunkNode → Prop} (h : sk.Written slot)
    (hslot : ∀ c ∈ sk.places, ∀ x, slot c x → slot' c x) : sk.Written slot' := by
  induction sk with
  | bare a q => exact hslot a (List.mem_singleton_self _) _ h
  | leaf a r reason items => exact hslot a (List.mem_singleton_self _) _ h
  | fork a r apart left right ihl ihr =>
    obtain ⟨hroot, hlinks, hl, hr⟩ := h
    exact ⟨hslot a (by simp [places]) _ hroot, hlinks,
      ihl hl fun c hc => hslot c (by simp [places, hc]),
      ihr hr fun c hc => hslot c (by simp [places, hc])⟩

/-- The buffers hold every leaf that is built. -/
theorem Holds.leaf (h : sk.Holds p b) {l : Region × List Item} (hl : l ∈ sk.leaves) :
    b.part .front 0 l.1.first l.1.last = l.2 := by
  induction sk with
  | bare a q => cases hl
  | leaf a r reason items =>
    cases List.mem_singleton.1 hl
    exact h
  | fork a r apart left right ihl ihr =>
    rcases List.mem_append.1 hl with hl | hl
    · exact ihl h.1 hl
    · exact ihr h.2 hl

/-- The buffers hold every bare plot. -/
theorem Holds.plot (h : sk.Holds p b) (hq : (a, q) ∈ sk.plots) :
    p.stock b q.region = q.stock := by
  induction sk with
  | bare a q =>
    cases List.mem_singleton.1 hq
    exact h
  | leaf a r reason items => cases hq
  | fork a r apart left right ihl ihr =>
    rcases List.mem_append.1 hq with hq | hq
    · exact ihl h.1 hq
    · exact ihr h.2 hq

theorem Written.plot {slot : Address → Option ChunkNode → Prop} (h : sk.Written slot)
    (hq : (a, q) ∈ sk.plots) : slot a none := by
  induction sk with
  | bare a q =>
    cases List.mem_singleton.1 hq
    exact h
  | leaf a r reason items => cases hq
  | fork a r apart left right ihl ihr =>
    rcases List.mem_append.1 hq with hq | hq
    · exact ihl h.2.2.1 hq
    · exact ihr h.2.2.2 hq

/-! ## What a sketch becomes -/

/-- A sketch without bare nodes is a tree. -/
theorem exists_becomes (h : sk.plots = []) : ∃ t, Becomes p back sk t := by
  induction sk with
  | bare a q => cases h
  | leaf a r reason items => exact ⟨_, .leaf⟩
  | fork a r apart left right ihl ihr =>
    obtain ⟨hl, hr⟩ := List.append_eq_nil_iff.1 h
    obtain ⟨l, hl⟩ := ihl hl
    obtain ⟨r', hr⟩ := ihr hr
    exact ⟨_, .fork hl hr⟩

namespace Becomes

theorem nodes_pos (t : Growth) : 0 < t.nodes := by
  cases t <;> exact Nat.succ_pos _

/-- A sketch has at most the nodes of the trees it becomes. -/
theorem length_places_le (h : Becomes p back sk t) : sk.places.length ≤ t.nodes := by
  induction h with
  | bare h => exact nodes_pos _
  | leaf => exact Nat.le_refl 1
  | fork _ _ ihl ihr =>
    rw [places, List.length_cons, List.length_append, Growth.nodes]
    omega

/-- What a sketch still adds to the counters. -/
theorem stats_le (h : Becomes p back sk t) : ∃ rest, t.stats = sk.stats + rest := by
  induction h with
  | bare h => exact ⟨_, (zero_add _).symm⟩
  | leaf => exact ⟨0, (add_zero _).symm⟩
  | fork _ _ ihl ihr =>
    obtain ⟨u, hu⟩ := ihl
    obtain ⟨v, hv⟩ := ihr
    refine ⟨u + v, ?_⟩
    rw [Growth.stats, hu, hv, stats]
    abel

/-- **A finished sketch has the counters of its tree.** -/
theorem stats_eq (h : Becomes p back sk t) (hdone : sk.plots = []) : sk.stats = t.stats := by
  induction h with
  | bare h => cases hdone
  | leaf => rfl
  | fork _ _ ihl ihr =>
    obtain ⟨hl, hr⟩ := List.append_eq_nil_iff.1 hdone
    rw [stats, Growth.stats, ihl hl, ihr hr]

theorem jobs_eq (h : Becomes p back sk t) (hdone : sk.plots = []) : sk.jobs = t.jobs := by
  induction h with
  | bare h => cases hdone
  | leaf => rfl
  | fork _ _ ihl ihr =>
    obtain ⟨hl, hr⟩ := List.append_eq_nil_iff.1 hdone
    rw [jobs, Growth.jobs, ihl hl, ihr hr]

/-- A finished sketch has the nodes of its tree. -/
theorem length_places_eq (h : Becomes p back sk t) (hdone : sk.plots = []) :
    sk.places.length = t.nodes := by
  induction h with
  | bare h => cases hdone
  | leaf => rfl
  | fork _ _ ihl ihr =>
    obtain ⟨hl, hr⟩ := List.append_eq_nil_iff.1 hdone
    rw [places, List.length_cons, List.length_append, ihl hl, ihr hr, Growth.nodes]

end Becomes

/-! ## Grafting -/

/-- One sketch is another one with a bare node replaced. -/
inductive Grafts (a : Address) (q : Plot) (new : Sketch) : Sketch → Sketch → Prop where
  | here : Grafts a q new (.bare a q) new
  | left {b : Address} {r : Region} {apart : Bool} {left left' right : Sketch}
      (h : Grafts a q new left left') :
    Grafts a q new (.fork b r apart left right) (.fork b r apart left' right)
  | right {b : Address} {r : Region} {apart : Bool} {left right right' : Sketch}
      (h : Grafts a q new right right') :
    Grafts a q new (.fork b r apart left right) (.fork b r apart left right')

/-- Every bare node can be replaced. -/
theorem exists_grafts (new : Sketch) (h : (a, q) ∈ sk.plots) : ∃ sk', Grafts a q new sk sk' := by
  induction sk with
  | bare b q' =>
    cases List.mem_singleton.1 h
    exact ⟨new, .here⟩
  | leaf b r reason items => cases h
  | fork b r apart left right ihl ihr =>
    rcases List.mem_append.1 h with h | h
    · obtain ⟨left', hl⟩ := ihl h
      exact ⟨_, .left hl⟩
    · obtain ⟨right', hr⟩ := ihr h
      exact ⟨_, .right hr⟩

namespace Grafts

variable (h : Grafts a q new sk sk')
include h

theorem mem_plots : (a, q) ∈ sk.plots := by
  induction h with
  | here => exact List.mem_singleton_self _
  | left _ ih => exact List.mem_append_left _ ih
  | right _ ih => exact List.mem_append_right _ ih

theorem mem_places : a ∈ sk.places := by
  induction h with
  | here => exact List.mem_singleton_self _
  | left _ ih => exact List.mem_cons_of_mem _ (List.mem_append_left _ ih)
  | right _ ih => exact List.mem_cons_of_mem _ (List.mem_append_right _ ih)

/-- The root keeps its place when the new part has that of the node it replaces. -/
theorem place_eq (hnew : new.place = a) : sk'.place = sk.place := by
  cases h with
  | here => exact hnew
  | left _ => rfl
  | right _ => rfl

theorem places_perm :
    ∃ rest, sk.places.Perm (a :: rest) ∧ sk'.places.Perm (new.places ++ rest) := by
  induction h with
  | here => exact ⟨[], .refl _, by rw [List.append_nil]⟩
  | @left b r apart left left' right _ ih =>
    obtain ⟨rest, hold, hnew⟩ := ih
    refine ⟨b :: (rest ++ right.places), ?_, ?_⟩
    · exact ((hold.append_right _).cons b).trans (.swap _ _ _)
    · refine ((hnew.append_right _).cons b).trans ?_
      rw [List.append_assoc]
      exact List.perm_middle.symm
  | @right b r apart left right right' _ ih =>
    obtain ⟨rest, hold, hnew⟩ := ih
    refine ⟨b :: (left.places ++ rest), ?_, ?_⟩
    · refine ((hold.append_left _).cons b).trans ?_
      exact (List.perm_middle.cons b).trans (.swap _ _ _)
    · refine ((hnew.append_left _).cons b).trans ?_
      rw [← List.append_assoc]
      refine ((List.perm_append_comm.append_right rest).cons b).trans ?_
      rw [List.append_assoc]
      exact List.perm_middle.symm

theorem length_places : sk'.places.length + 1 = new.places.length + sk.places.length := by
  obtain ⟨rest, hold, hnew⟩ := h.places_perm
  rw [hold.length_eq, hnew.length_eq, List.length_append, List.length_cons]
  omega

theorem plots_perm :
    ∃ rest, sk.plots.Perm ((a, q) :: rest) ∧ sk'.plots.Perm (new.plots ++ rest) := by
  induction h with
  | here => exact ⟨[], .refl _, by rw [List.append_nil]⟩
  | @left b r apart left left' right _ ih =>
    obtain ⟨rest, hold, hnew⟩ := ih
    refine ⟨rest ++ right.plots, hold.append_right _, ?_⟩
    rw [← List.append_assoc]
    exact hnew.append_right _
  | @right b r apart left right right' _ ih =>
    obtain ⟨rest, hold, hnew⟩ := ih
    refine ⟨left.plots ++ rest, (hold.append_left _).trans List.perm_middle, ?_⟩
    refine (hnew.append_left _).trans ?_
    rw [← List.append_assoc, ← List.append_assoc]
    exact List.perm_append_comm.append_right rest

theorem leaves_perm : sk'.leaves.Perm (new.leaves ++ sk.leaves) := by
  induction h with
  | here => exact .of_eq (List.append_nil _).symm
  | @left b r apart left left' right _ ih =>
    rw [leaves, leaves, ← List.append_assoc]
    exact ih.append_right _
  | @right b r apart left right right' _ ih =>
    refine (ih.append_left _).trans ?_
    rw [leaves, ← List.append_assoc, ← List.append_assoc]
    exact List.perm_append_comm.append_right _

/-- **What is grafted is added to the counters.** -/
theorem stats_eq : sk'.stats = new.stats + sk.stats := by
  induction h with
  | here => exact (add_zero _).symm
  | @left b r apart left left' right _ ih =>
    rw [stats, stats, ih]
    abel
  | @right b r apart left right right' _ ih =>
    rw [stats, stats, ih]
    abel

theorem jobs_eq : sk'.jobs = new.jobs + sk.jobs := by
  induction h with
  | here => rfl
  | left _ ih =>
    rw [jobs, jobs, ih]
    omega
  | right _ ih =>
    rw [jobs, jobs, ih]
    omega

/-- **A part that becomes the same trees** does not change what the whole becomes. -/
theorem becomes_iff (hnew : ∀ t, Becomes p back new t ↔ Grows p back q t) (t : Growth) :
    Becomes p back sk' t ↔ Becomes p back sk t := by
  induction h generalizing t with
  | here => exact (hnew t).trans ⟨.bare, fun h => by cases h; assumption⟩
  | left _ ih =>
    constructor
    · rintro (_ | _ | ⟨hl, hr⟩)
      exact .fork ((ih _).1 hl) hr
    · rintro (_ | _ | ⟨hl, hr⟩)
      exact .fork ((ih _).2 hl) hr
  | right _ ih =>
    constructor
    · rintro (_ | _ | ⟨hl, hr⟩)
      exact .fork hl ((ih _).1 hr)
    · rintro (_ | _ | ⟨hl, hr⟩)
      exact .fork hl ((ih _).2 hr)

/-- The replaced plot lies inside what the sketch covers. -/
theorem lies_in (hc : sk.Covers first last) : first ≤ q.region.first ∧ q.region.last ≤ last := by
  induction h generalizing first last with
  | here => exact ⟨hc.1.ge, hc.2.1.le⟩
  | left _ ih =>
    obtain ⟨mid, hl, hr⟩ := hc
    -- the other branch takes nothing away
    have := ih hl
    have := hr.le
    omega
  | right _ ih =>
    obtain ⟨mid, hl, hr⟩ := hc
    have := ih hr
    have := hl.le
    omega

theorem covers (hnew : new.Covers q.region.first q.region.last) (hc : sk.Covers first last) :
    sk'.Covers first last := by
  induction h generalizing first last with
  | here =>
    obtain ⟨rfl, rfl, -⟩ := hc
    exact hnew
  | left _ ih =>
    obtain ⟨mid, hl, hr⟩ := hc
    exact ⟨mid, ih hl, hr⟩
  | right _ ih =>
    obtain ⟨mid, hl, hr⟩ := hc
    exact ⟨mid, hl, ih hr⟩

/-- **Work on a plot leaves the rest of the sketch alone**, since its range meets no other. -/
theorem holds (hk : Keeps q.region.first q.region.last b b') (hnew : new.Holds p b')
    (hc : sk.Covers first last) (hb : sk.Holds p b) : sk'.Holds p b' := by
  induction h generalizing first last with
  | here => exact hnew
  | left h ih =>
    obtain ⟨mid, hl, hr⟩ := hc
    exact ⟨ih hl hb.1, hr.holds_of_keeps hk (.inr (h.lies_in hl).2) hb.2⟩
  | right h ih =>
    obtain ⟨mid, hl, hr⟩ := hc
    exact ⟨hl.holds_of_keeps hk (.inl (h.lies_in hr).1) hb.1, ih hr hb.2⟩

/-- **Writing the nodes of a new part** where nothing else is kept. -/
theorem written {slot slot' : Address → Option ChunkNode → Prop} (hplace : new.place = a)
    (hnodup : sk.places.Nodup) (hslot : ∀ c ∈ sk.places, c ≠ a → ∀ x, slot c x → slot' c x)
    (hnew : new.Written slot') (hw : sk.Written slot) : sk'.Written slot' := by
  induction h with
  | here => exact hnew
  | @left c r apart left left' right h ih =>
    obtain ⟨hroot, hlinks, hl, hr⟩ := hw
    have ha : a ∈ left.places := h.mem_places
    rw [places, List.nodup_cons, List.nodup_append] at hnodup
    obtain ⟨hc, hleft, -, hdisjoint⟩ := hnodup
    refine ⟨?_, ?_, ih hleft (fun d hd => hslot d (by simp [places, hd])) hl, ?_⟩
    -- the root is above the place that is filled, and the links to it still hold
    · rw [h.place_eq hplace]
      refine hslot c (by simp [places]) ?_ _ hroot
      rintro rfl
      exact hc (List.mem_append_left _ ha)
    · rw [h.place_eq hplace]
      exact hlinks
    · refine hr.imp fun d hd x hx => hslot d (by simp [places, hd]) ?_ x hx
      rintro rfl
      exact hdisjoint d ha d hd rfl
  | @right c r apart left right right' h ih =>
    obtain ⟨hroot, hlinks, hl, hr⟩ := hw
    have ha : a ∈ right.places := h.mem_places
    rw [places, List.nodup_cons, List.nodup_append] at hnodup
    obtain ⟨hc, -, hright, hdisjoint⟩ := hnodup
    refine ⟨?_, ?_, ?_, ih hright (fun d hd => hslot d (by simp [places, hd])) hr⟩
    · rw [h.place_eq hplace]
      refine hslot c (by simp [places]) ?_ _ hroot
      rintro rfl
      exact hc (List.mem_append_right _ ha)
    · rw [h.place_eq hplace]
      exact hlinks
    · refine hl.imp fun d hd x hx => hslot d (by simp [places, hd]) ?_ x hx
      rintro rfl
      exact hdisjoint d hd d ha rfl

end Grafts

end Sketch

/-! ## The sketch of a move -/

/-- The part of a sketch that a move makes of a plot, with the places of the two children. -/
def Move.sketch (a l r : Address) (q : Plot) : Move → Sketch
  | leaf reason => .leaf a q.region reason q.stock.order
  | halve stock => .bare a ⟨q.region, true, stock⟩
  | fork apart left right => .fork a q.region apart (.bare l left) (.bare r right)

namespace Move

open Sketch

variable {p : Plan} {back : Bool} {n : Nat} {a l r : Address} {q : Plot} {m : Move}

@[simp] theorem place_sketch (a l r : Address) (q : Plot) (m : Move) :
    (m.sketch a l r q).place = a := by
  cases m <;> rfl

theorem stats_sketch (a l r : Address) (q : Plot) (m : Move) :
    (m.sketch a l r q).stats = m.tally q.region := by
  cases m with
  | leaf reason => rfl
  | halve stock => rfl
  | fork apart left right => exact stats_fork_bare a l r q.region apart left right

/-- **A move becomes the trees of its plot.** -/
theorem becomes_sketch (hm : p.move back q = .ok m) (t : Growth) :
    Becomes p back (m.sketch a l r q) t ↔ Grows p back q t := by
  constructor
  · intro h
    cases m with
    | leaf reason =>
      cases h
      exact .leaf hm
    | halve stock =>
      cases h with
      | bare h => exact .halve hm h
    | fork apart left right =>
      cases h with
      | fork hl hr =>
        cases hl with
        | bare hl =>
          cases hr with
          | bare hr => exact .fork hm hl hr
  · intro h
    cases h with
    | leaf hm' =>
      cases hm.symm.trans hm'
      exact .leaf
    | halve hm' h =>
      cases hm.symm.trans hm'
      exact .bare h
    | fork hm' hl hr =>
      cases hm.symm.trans hm'
      exact .fork (.bare hl) (.bare hr)

theorem Sound.covers (h : m.Sound p back n q) (hq : q.Sound p back n) :
    (m.sketch a l r q).Covers q.region.first q.region.last := by
  cases m with
  | leaf reason => exact ⟨rfl, rfl, hq.lies.le⟩
  | halve stock => exact ⟨rfl, rfl, hq.lies.le⟩
  | fork apart left right =>
    obtain ⟨hl, hr, hf⟩ := h
    have hlle := hl.lies.le
    have hrle := hr.lies.le
    rw [hf.first] at hlle
    rw [hf.last] at hrle
    exact ⟨left.region.last, ⟨hf.first, rfl, hlle⟩, ⟨hf.mid.symm, hf.last, hf.mid ▸ hrle⟩⟩

theorem Sound.plots (h : m.Sound p back n q) :
    ∀ c ∈ (m.sketch a l r q).plots, Plot.Sound p back n c.2 := by
  cases m with
  | leaf reason => exact fun _ h => by cases h
  | halve stock =>
    intro c hc
    cases List.mem_singleton.1 hc
    exact h.1
  | fork apart left right =>
    obtain ⟨hl, hr, -⟩ := h
    intro c hc
    rcases List.mem_pair.1 hc with rfl | rfl
    · exact hl
    · exact hr

end Move

end BoxTree

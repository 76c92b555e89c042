import BoxTree.Proofs.Growth.Sound
import BoxTree.Proofs.Statistics.Sums
/-!
# The tree that grows on a plot

Moves determine a tree: a leaf, the tree of the plot they reorder, or a fork over the trees of two
plots. `Grows` relates a plot to its tree without any machine, buffers or schedule. A plot has at
most one tree (`Grows.unique`), and the tree over a sound plot is **proper** (`Grows.proper`):
ranges, depths and boxes of every node agree with what lies below it.
-/

namespace BoxTree

/-- Consecutive ranges between two places. -/
def Tiles : (first last : Nat) → List (Nat × Nat) → Prop
  | first, last, [] => first = last
  | first, last, (a, b) :: rest => a = first ∧ a ≤ b ∧ Tiles b last rest

/-- A tree that has grown on a plot: the regions of its nodes, what lies in its leaves, and which
right children were built apart. -/
inductive Growth where
  | leaf (region : Region) (reason : LeafReason) (items : List Item)
  | fork (region : Region) (apart : Bool) (left right : Growth)

namespace Growth

/-- The region of the root. -/
def region : Growth → Region
  | leaf r _ _ => r
  | fork r _ _ _ => r

/-- The items of the leaves from left to right. -/
def items : Growth → List Item
  | leaf _ _ items => items
  | fork _ _ left right => left.items ++ right.items

/-- The number of nodes. -/
def nodes : Growth → Nat
  | leaf .. => 1
  | fork _ _ left right => left.nodes + right.nodes + 1

/-- The ranges of the leaves from left to right. -/
def ranges : Growth → List (Nat × Nat)
  | leaf r _ _ => [(r.first, r.last)]
  | fork _ _ left right => left.ranges ++ right.ranges

/-- What the nodes add to the counters of a build. -/
def stats : Growth → Statistics
  | leaf r reason _ => .leafTally reason r.depth r.size
  | fork _ _ left right => .interiorTally + (left.stats + right.stats)

/-- The number of subtrees that were built apart. -/
def jobs : Growth → Nat
  | leaf .. => 0
  | fork _ apart left right => left.jobs + right.jobs + (if apart then 1 else 0)

def IsLeaf : Growth → Prop
  | leaf .. => True
  | fork .. => False

/-- A property of a tree and of all its subtrees. -/
def All (Q : Growth → Prop) : Growth → Prop
  | leaf r reason items => Q (leaf r reason items)
  | fork r apart left right => Q (fork r apart left right) ∧ left.All Q ∧ right.All Q

/-- The ranges, depths and boxes of all nodes agree with what lies below them. -/
def Proper : Growth → Prop
  | leaf r _ items =>
    r.first ≤ r.last ∧ items.length = r.size ∧ r.extent.Spans (items.map Item.box)
  | fork r _ left right =>
    left.region.first = r.first ∧ left.region.last = right.region.first ∧
      right.region.last = r.last ∧ left.region.depth = r.depth + 1 ∧
      right.region.depth = r.depth + 1 ∧ 0 < left.region.size ∧ 0 < right.region.size ∧
      r.extent.Spans ((left.items ++ right.items).map Item.box) ∧ left.Proper ∧ right.Proper

end Growth

/-- The tree that moves make of a plot. -/
inductive Grows (p : Plan) (back : Bool) : Plot → Growth → Prop where
  | leaf {q : Plot} {reason : LeafReason} (h : p.move back q = .ok (.leaf reason)) :
    Grows p back q (.leaf q.region reason q.stock.order)
  | halve {q : Plot} {stock : Stock} {t : Growth} (h : p.move back q = .ok (.halve stock))
      (ht : Grows p back ⟨q.region, true, stock⟩ t) : Grows p back q t
  | fork {q left right : Plot} {apart : Bool} {l r : Growth}
      (h : p.move back q = .ok (.fork apart left right)) (hl : Grows p back left l)
      (hr : Grows p back right r) : Grows p back q (.fork q.region apart l r)

variable {p : Plan} {back : Bool} {n : Nat} {q : Plot} {t t' : Growth}

/-- **A plot has at most one tree.** -/
theorem Grows.unique (h : Grows p back q t) (h' : Grows p back q t') : t = t' := by
  induction h generalizing t' with
  | leaf hm =>
    cases h' with
    | leaf hm' => cases hm.symm.trans hm'; rfl
    | halve hm' _ => cases hm.symm.trans hm'
    | fork hm' _ _ => cases hm.symm.trans hm'
  | halve hm _ ih =>
    cases h' with
    | leaf hm' => cases hm.symm.trans hm'
    | halve hm' ht' =>
      cases hm.symm.trans hm'
      exact ih ht'
    | fork hm' _ _ => cases hm.symm.trans hm'
  | fork hm _ _ ihl ihr =>
    cases h' with
    | leaf hm' => cases hm.symm.trans hm'
    | halve hm' _ => cases hm.symm.trans hm'
    | fork hm' hl' hr' =>
      cases hm.symm.trans hm'
      rw [ihl hl', ihr hr']

/-- **The tree over a sound plot is proper**, lies on its region and holds its items. -/
theorem Grows.proper (hp : p.Usable back) (hq : q.Sound p back n) (h : Grows p back q t) :
    t.region = q.region ∧ t.items.Perm q.stock.order ∧ t.Proper := by
  induction h with
  | leaf _ => exact ⟨rfl, .refl _, hq.lies.le, hq.length, hq.spans⟩
  | halve hm _ ih =>
    obtain ⟨hsound, hperm⟩ := Plan.move_sound hp hq hm
    obtain ⟨hr, hi, ht⟩ := ih hsound
    exact ⟨hr, hi.trans hperm, ht⟩
  | @fork q left right apart l r hm _ _ ihl ihr =>
    obtain ⟨hleft, hright, hf⟩ := Plan.move_sound hp hq hm
    obtain ⟨hlr, hli, hlt⟩ := ihl hleft
    obtain ⟨hrr, hri, hrt⟩ := ihr hright
    have hitems : (l.items ++ r.items).Perm q.stock.order := (hli.append hri).trans hf.items
    have hspans := hq.spans.perm (hitems.map Item.box).symm
    refine ⟨rfl, hitems, ?_⟩
    rw [Growth.Proper, hlr, hrr]
    exact ⟨hf.first, hf.mid, hf.last, hf.leftDepth, hf.rightDepth, hf.left_pos, hf.right_pos,
      hspans, hlt, hrt⟩

theorem Growth.All.root {Q : Growth → Prop} (h : t.All Q) : Q t := by
  cases t with
  | leaf r reason items => exact h
  | fork r apart left right => exact h.1

/-! ## Proper trees -/

theorem Tiles.append {first mid last : Nat} {ranges ranges' : List (Nat × Nat)}
    (h : Tiles first mid ranges) (h' : Tiles mid last ranges') :
    Tiles first last (ranges ++ ranges') := by
  induction ranges generalizing first with
  | nil =>
    cases h
    exact h'
  | cons range rest ih => exact ⟨h.1, h.2.1, ih h.2.2⟩

namespace Growth

theorem Proper.spans (h : t.Proper) : t.region.extent.Spans (t.items.map Item.box) := by
  cases t with
  | leaf r _ items => exact h.2.2
  | fork r _ left right => exact h.2.2.2.2.2.2.2.1

/-- **The leaves of a proper tree tile its range.** -/
theorem Proper.tiles (h : t.Proper) : Tiles t.region.first t.region.last t.ranges := by
  induction t with
  | leaf r _ items => exact ⟨rfl, h.1, rfl⟩
  | fork r _ left right ihl ihr =>
    obtain ⟨hfirst, hmid, hlast, -, -, -, -, -, hl, hr⟩ := h
    have htl := ihl hl
    have htr := ihr hr
    rw [hfirst, hmid] at htl
    rw [hlast] at htr
    exact htl.append htr

/-- **No leaf is empty** unless the whole tree is. -/
theorem Proper.range_pos (h : t.Proper) (hpos : 0 < t.region.size) :
    ∀ range ∈ t.ranges, range.1 < range.2 := by
  induction t with
  | leaf r _ items =>
    intro range hmem
    rw [List.mem_singleton.1 hmem]
    exact Nat.lt_of_sub_pos hpos
  | fork r _ left right ihl ihr =>
    obtain ⟨-, -, -, -, -, hlpos, hrpos, -, hl, hr⟩ := h
    rw [ranges, List.forall_mem_append]
    exact ⟨ihl hl hlpos, ihr hr hrpos⟩

theorem Proper.first_le_last (h : t.Proper) : t.region.first ≤ t.region.last := by
  induction t with
  | leaf r _ items => exact h.1
  | fork r _ left right ihl ihr =>
    obtain ⟨hfirst, hmid, hlast, -, -, -, -, -, hl, hr⟩ := h
    have := ihl hl
    have := ihr hr
    rw [region]
    omega

theorem Proper.length_items (h : t.Proper) : t.items.length = t.region.size := by
  induction t with
  | leaf r _ items => exact h.2.1
  | fork r _ left right ihl ihr =>
    obtain ⟨hfirst, hmid, hlast, -, -, -, -, -, hl, hr⟩ := h
    have hll := hl.first_le_last
    have hrl := hr.first_le_last
    have hleft := ihl hl
    have hright := ihr hr
    unfold Region.size at hleft hright ⊢
    rw [items, List.length_append, region]
    omega

end Growth

end BoxTree

import BoxTree.Proofs.Growth.Depths
import BoxTree.Proofs.Growth.Room
import Mathlib.Order.Bounds.Basic
/-!
# Halving by position

A plot that is halved is not searched any more: it is a leaf once its objects fit and is cut in the
middle until then (`Plan.move_halved`). The tree that grows on it is known node by node
(`Growth.Halves`), keeps the items where they are, and is exactly as deep as it takes to halve all
of them into leaves (`Growth.isLeast_cuts`).
-/

namespace BoxTree

/-- A node as halving leaves it: a leaf of objects that fit, or two parts cut in the middle. -/
def Growth.Halves (maxPerLeaf : Nat) : Growth → Prop
  | leaf r reason _ => reason = .arbitrarySplit ∧ r.size ≤ maxPerLeaf
  | fork r apart left _ =>
    apart = false ∧ maxPerLeaf < r.size ∧ left.region.last = r.first + r.size / 2

variable {p : Plan} {back : Bool} {n k : Nat} {q : Plot} {t : Growth} {m : Move}

/-- **A halved plot** is a leaf if it fits, and cut in the middle if it does not. -/
theorem Plan.move_halved (hq : q.halved = true) (h : p.move back q = .ok m) :
    (m = .leaf .arbitrarySplit ∧ q.region.size ≤ p.settings.maxPerLeaf) ∨
      (m = cutPlot q ∧ p.settings.maxPerLeaf < q.region.size) := by
  rw [move, verdict, if_pos hq, ok_bind] at h
  split at h
  · rename_i hfits
    cases h
    exact .inl ⟨rfl, hfits⟩
  · rename_i hlarge
    cases h
    exact .inr ⟨rfl, Nat.lt_of_not_le hlarge⟩

/-- **The tree of a halved plot** is halved throughout and keeps the order of the items. -/
theorem Grows.halves (hq : q.halved = true) (h : Grows p back q t) :
    t.region = q.region ∧ t.items = q.stock.order ∧
      t.All (Growth.Halves p.settings.maxPerLeaf) := by
  induction h with
  | leaf hm =>
    rcases Plan.move_halved hq hm with ⟨heq, hfits⟩ | ⟨heq, -⟩
    · cases heq
      exact ⟨rfl, rfl, rfl, hfits⟩
    · cases heq
  | halve hm _ _ =>
    rcases Plan.move_halved hq hm with ⟨heq, -⟩ | ⟨heq, -⟩ <;> cases heq
  | @fork q left right apart l r hm _ _ ihl ihr =>
    rcases Plan.move_halved hq hm with ⟨heq, -⟩ | ⟨heq, hlarge⟩
    · cases heq
    · cases heq
      obtain ⟨hlregion, hlitems, hl⟩ := ihl rfl
      obtain ⟨hrregion, hritems, hr⟩ := ihr rfl
      refine ⟨rfl, ?_, ⟨rfl, hlarge, by rw [hlregion]; rfl⟩, hl, hr⟩
      rw [Growth.items, hlitems, hritems, Stock.order_map, Stock.order_map]
      exact List.take_append_drop _ _

/-- The tree of a plot that can only be halved. -/
theorem Grows.halves_of_move (hmove : ∀ m, p.move back q = .ok m → m = .halve q.stock)
    (h : Grows p back q t) :
    t.items = q.stock.order ∧ t.All (Growth.Halves p.settings.maxPerLeaf) := by
  cases h with
  | leaf hm => cases hmove _ hm
  | halve hm ht =>
    cases hmove _ hm
    exact (ht.halves rfl).2
  | fork hm _ _ => cases hmove _ hm

/-! ## How many cuts it takes -/

theorem isLeast_cuts_zero (h : n ≤ k) : IsLeast {i | n ≤ k * 2 ^ i} 0 :=
  ⟨by simpa using h, fun _ _ => Nat.zero_le _⟩

/-- One cut more than for the larger half. -/
theorem isLeast_cuts_succ {i : Nat} (hlarge : k < n) (h : IsLeast {i | n - n / 2 ≤ k * 2 ^ i} i) :
    IsLeast {i | n ≤ k * 2 ^ i} (i + 1) := by
  obtain ⟨hfits, hleast⟩ := h
  change n - n / 2 ≤ k * 2 ^ i at hfits
  constructor
  · change n ≤ k * 2 ^ (i + 1)
    rw [Nat.pow_succ, ← Nat.mul_assoc]
    omega
  · intro j hj
    change n ≤ k * 2 ^ j at hj
    cases j with
    | zero =>
      rw [Nat.pow_zero, Nat.mul_one] at hj
      exact absurd hlarge (Nat.not_lt_of_le hj)
    | succ j =>
      rw [Nat.pow_succ, ← Nat.mul_assoc] at hj
      have hhalf : n - n / 2 ≤ k * 2 ^ j := by omega
      exact Nat.succ_le_succ (hleast hhalf)

namespace Growth

/-- **The greatest depth** of a halved tree: that of its root and the cuts it takes. -/
theorem isLeast_cuts (ht : t.Proper) (h : t.All (Halves k)) :
    ∃ i, IsLeast {i | t.region.size ≤ k * 2 ^ i} i ∧
      t.stats.maxLeafDepth = t.region.depth + i := by
  induction t with
  | leaf r reason items =>
    refine ⟨0, isLeast_cuts_zero h.2, ?_⟩
    cases reason <;> exact Nat.zero_max _
  | fork r apart left right ihl ihr =>
    have hsize := ht.size_eq
    obtain ⟨hfirst, hmid, hlast, hld, hrd, -, -, -, hl, hr⟩ := ht
    obtain ⟨⟨-, hlarge, hcut⟩, hall, har⟩ := h
    obtain ⟨i, hi, hleft⟩ := ihl hl hall
    obtain ⟨j, hj, hright⟩ := ihr hr har
    have hlsize : left.region.size = r.size / 2 := by
      rw [Region.size, hfirst, hcut, Nat.add_sub_cancel_left]
    have hrsize : right.region.size = r.size - r.size / 2 := by omega
    rw [hrsize] at hj
    -- the right half is the larger one, so that it takes no fewer cuts
    have hle : i ≤ j := by
      refine hi.2 (?_ : left.region.size ≤ k * 2 ^ j)
      have hfits : r.size - r.size / 2 ≤ k * 2 ^ j := hj.1
      omega
    refine ⟨j + 1, isLeast_cuts_succ hlarge hj, ?_⟩
    have hdepth : (fork r apart left right).stats.maxLeafDepth =
        max left.stats.maxLeafDepth right.stats.maxLeafDepth := Nat.zero_max _
    rw [hdepth, hleft, hright, hld, hrd, region]
    omega

/-- Halving makes every leaf for one reason. -/
theorem All.arbitraryLeaves_eq (h : t.All (Halves k)) :
    t.stats.arbitraryLeaves = t.stats.leaves := by
  induction t with
  | leaf r reason items =>
    rw [h.1]
    rfl
  | fork r apart left right ihl ihr =>
    simp only [stats, Statistics.add_eq, ihl h.2.1, ihr h.2.2]
    rfl

/-- Halving submits no job. -/
theorem All.jobs_eq (h : t.All (Halves k)) : t.jobs = 0 := by
  induction t with
  | leaf r reason items => rfl
  | fork r apart left right ihl ihr =>
    rw [jobs, ihl h.2.1, ihr h.2.2, h.1.1]
    rfl

end Growth

end BoxTree

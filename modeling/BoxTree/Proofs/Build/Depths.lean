import BoxTree.Proofs.Build.Bounds
import BoxTree.Proofs.Growth.Depths
import Mathlib.Order.Bounds.Basic
/-!
# The depth of a complete tree

A complete tree is shallow, whatever the boxes are: splits that get nowhere end at
`Plan.maxDepth`, and halving by position adds no more levels than it takes to halve all objects into
leaves (`Builder.build_shallow`).
-/

namespace BoxTree

namespace Tree

/-- What is right about the depths of a tree over a number of objects. -/
structure Shallow (t : Tree) (s : Settings) (n : Nat) : Prop where
  /-- A leaf that holds more objects than the settings allow lies at the greatest depth of a
  search. -/
  crowded : ∀ (i first last : Nat) (node : Node), t.nodes[i]? = some node →
    node.kind = .leaf first last → s.maxPerLeaf < last - first → node.depth = Plan.maxDepth
  /-- No node lies deeper, but for as many levels as it takes to halve all objects into leaves. -/
  depth : ∃ k, IsLeast {k | n ≤ s.maxPerLeaf * 2 ^ k} k ∧
    ∀ (i : Nat) (node : Node), t.nodes[i]? = some node →
      node.depth ≤ max Plan.maxDepth (Plan.maxDepth - 1 + k)

end Tree

namespace Builder

variable {builder : Builder} {boxes : List Box} {policy : Policy} {check : Check}
  {queue : JobQueue BuildJob} {tree : Tree} {t : Growth} {places : List Nat} {s : Settings}
  {p : Plan} {k n : Nat}

/-- Small ranges fit in leaves where the settings are valid. -/
theorem leafThreshold_le (h : s.validate = .ok ()) : s.leafThreshold ≤ s.maxPerLeaf :=
  (validate_eq_ok_iff.1 h).maxPerLeaf

/-- All objects fit in leaves after enough cuts. -/
theorem exists_least_cuts (hpos : 0 < s.maxPerLeaf) (n : Nat) :
    ∃ k, IsLeast {k | n ≤ s.maxPerLeaf * 2 ^ k} k := by
  classical
  have hex : ∃ k, n ≤ s.maxPerLeaf * 2 ^ k :=
    ⟨n, Nat.lt_two_pow_self.le.trans (Nat.le_mul_of_pos_left _ hpos)⟩
  exact ⟨Nat.find hex, Nat.find_spec hex, fun _ h => Nat.find_min' hex h⟩

theorem root_shallow (h : boxes.length ≤ p.settings.maxPerLeaf * 2 ^ k) :
    (root p boxes).Shallow p k where
  size := h
  whole _ := Nat.zero_le _
  halved := nofun

/-- What is known of the depths of a tree that has grown is so of its nodes. -/
theorem Grown.shallow (h : Grown boxes tree t places)
    (hk : IsLeast {k | n ≤ s.maxPerLeaf * 2 ^ k} k) (hall : t.All (Growth.Shallow s k)) :
    tree.Shallow s n where
  crowded i first last node hnode hkind hlarge := by
    obtain ⟨r, js, hr, -, hp, -⟩ := h.exists_subtree hall And.right hnode
    cases hr with
    | leaf hleaf =>
      cases hleaf.symm.trans hnode
      cases hkind
      exact hp.2 trivial hlarge
    | fork hfork =>
      cases hfork.symm.trans hnode
      cases hkind
  depth := by
    refine ⟨k, hk, fun i node hnode => ?_⟩
    obtain ⟨r, js, hr, -, hp, -⟩ := h.exists_subtree hall And.right hnode
    rw [(hr.root_eq hnode).2]
    exact hp.root.1

/-- **Every complete tree is shallow**, for any boxes, any accepted settings, any check, any
platform, and whatever order the jobs are run in. -/
theorem build_shallow (ha : builder.Accepted) (hq : queue.waiting = []) (hne : boxes ≠ [])
    (h : (builder.build boxes policy check queue).outcome = .ok (.complete tree)) :
    tree.Shallow builder.settings boxes.length := by
  obtain ⟨p, t, places, hbuilt⟩ := built_of_complete ha hq hne h
  obtain ⟨hsettings, -⟩ := plan_eq hbuilt.plan
  obtain ⟨k, hk⟩ := exists_least_cuts (maxPerLeaf_pos ha.validate) boxes.length
  have hshallow := hbuilt.grows.shallow hbuilt.usable (hsettings ▸ leafThreshold_le ha.validate)
    (root_sound _) (root_shallow (hsettings ▸ hk.1))
  exact hbuilt.grown.shallow hk (hsettings ▸ hshallow)

theorem fine_shallow : row ≠ [] ∧ ∃ tree,
    (fine.build row .fifo .never {}).outcome = .ok (.complete tree) ∧
      tree.Shallow fine.settings row.length := by
  obtain ⟨tree, h⟩ := fine_complete
  exact ⟨nofun, tree, h, build_shallow fine_accepted rfl nofun h⟩

end Builder

end BoxTree

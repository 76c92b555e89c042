import BoxTree.Proofs.Results
import BoxTree.Statistics
import Mathlib.Algebra.BigOperators.Group.List.Basic
import Mathlib.Data.List.Forall2
/-!
# Statistics as sums

Counters of disjoint parts of a build are added and their maxima joined, which makes statistics a
commutative monoid. Every update adds a fixed amount to them, or fails because the sum would pass
the width of a counter. Hence what the counters come to does not depend on the order or the
grouping of the updates.
-/

namespace BoxTree

attribute [ext] Statistics

namespace Statistics

instance : Zero Statistics := ⟨{}⟩

instance : Add Statistics where
  add s t :=
    { maxDepthLeaves := s.maxDepthLeaves + t.maxDepthLeaves
      underThresholdLeaves := s.underThresholdLeaves + t.underThresholdLeaves
      cheaperLeaves := s.cheaperLeaves + t.cheaperLeaves
      arbitraryLeaves := s.arbitraryLeaves + t.arbitraryLeaves
      leaves := s.leaves + t.leaves
      largestLeaf := max s.largestLeaf t.largestLeaf
      leafDepthSum := s.leafDepthSum + t.leafDepthSum
      maxLeafDepth := max s.maxLeafDepth t.maxLeafDepth
      interiorNodes := s.interiorNodes + t.interiorNodes
      chunks := s.chunks + t.chunks }

theorem add_eq (s t : Statistics) :
    s + t =
      ⟨s.maxDepthLeaves + t.maxDepthLeaves, s.underThresholdLeaves + t.underThresholdLeaves,
        s.cheaperLeaves + t.cheaperLeaves, s.arbitraryLeaves + t.arbitraryLeaves,
        s.leaves + t.leaves, max s.largestLeaf t.largestLeaf, s.leafDepthSum + t.leafDepthSum,
        max s.maxLeafDepth t.maxLeafDepth, s.interiorNodes + t.interiorNodes,
        s.chunks + t.chunks⟩ := rfl

theorem zero_eq : (0 : Statistics) = ⟨0, 0, 0, 0, 0, 0, 0, 0, 0, 0⟩ := rfl

instance : AddCommMonoid Statistics where
  add_assoc s t u := by simp only [add_eq, Nat.add_assoc, Nat.max_assoc]
  add_comm s t := by simp only [add_eq, Nat.add_comm, Nat.max_comm]
  zero_add s := by simp only [add_eq, zero_eq, Nat.zero_add, Nat.zero_max]
  add_zero s := by simp only [add_eq, zero_eq, Nat.add_zero, Nat.max_zero]
  nsmul := nsmulRec

/-- The counters of a width of their own; the two maxima are bounded by what they are maxima
of. -/
def bounded (s : Statistics) : List Nat :=
  [s.maxDepthLeaves, s.underThresholdLeaves, s.cheaperLeaves, s.arbitraryLeaves, s.leaves,
    s.leafDepthSum, s.interiorNodes, s.chunks]

/-- Every counter is within its width. -/
def Within (s : Statistics) : Prop := ∀ c ∈ s.bounded, c ≤ limit64

variable {s t : Statistics}

/-- Parts of sums within the widths are within them. -/
theorem Within.left (h : (s + t).Within) : s.Within := by
  simp only [Within, bounded, add_eq, List.forall_mem_cons, List.not_mem_nil, false_implies,
    implies_true, and_true] at h ⊢
  omega

/-! ## Updates -/

/-- An update that adds a fixed amount, unless the sum would pass the width of a counter. -/
def Adds (u : Update) (t : Statistics) : Prop :=
  ∀ s, u s = .ok (s + t) ∨ (u s = .error (.overflow "add") ∧ ¬ (s + t).Within)

/-- A counter that is raised is an amount that is added. -/
theorem adds_plus {get : Statistics → Nat} {set : Statistics → Nat → Statistics} {k : Nat}
    (hset : ∀ s, s + t = set s (get s + k)) (hmem : ∀ s, get s + k ∈ (s + t).bounded) :
    Adds (fun s => (plus (get s) k).map (set s)) t := by
  intro s
  by_cases h : get s + k ≤ limit64
  · left
    simp only [plus, addWithin]
    rw [if_pos h, hset, ok_map]
  · right
    simp only [plus, addWithin]
    rw [if_neg h]
    exact ⟨rfl, fun hw => h (hw _ (hmem s))⟩

/-- A maximum that is raised is an amount that is added. -/
theorem adds_total {f : Statistics → Statistics} (h : ∀ s, s + t = f s) :
    Adds (fun s => .ok (f s)) t := fun s => .inl (by rw [h])

/-- How a record turns out that adds a fixed amount. -/
def Records (r : Statistics × Except Fault Unit) (sum : Statistics) : Prop :=
  r = (sum, .ok ()) ∨ (∃ s, r = (s, .error (.overflow "add"))) ∧ ¬ sum.Within

/-- **Updates in order add their amounts**, or one of them fails. -/
theorem run_adds {us : List Update} {ts : List Statistics} (h : List.Forall₂ Adds us ts)
    (s : Statistics) : Records (run us s) (s + ts.sum) := by
  induction h generalizing s with
  | nil =>
    left
    rw [List.sum_nil, add_zero]
    rfl
  | @cons u t us ts hu _ ih =>
    rw [List.sum_cons, ← add_assoc]
    rcases hu s with hok | ⟨herr, hover⟩
    · simp only [run, hok]
      exact ih (s + t)
    · right
      refine ⟨⟨s, ?_⟩, fun hw => hover hw.left⟩
      simp only [run, herr]

/-! ## The updates of a build -/

/-- What a leaf adds to its reason. -/
def reasonTally : LeafReason → Statistics
  | .underThreshold => { underThresholdLeaves := 1 }
  | .maxDepth => { maxDepthLeaves := 1 }
  | .cheaperNotToSplit => { cheaperLeaves := 1 }
  | .arbitrarySplit => { arbitraryLeaves := 1 }

/-- What a leaf adds. -/
def leafTally (reason : LeafReason) (depth count : Nat) : Statistics :=
  reasonTally reason +
    { leaves := 1, largestLeaf := count, leafDepthSum := depth, maxLeafDepth := depth }

/-- What an interior node adds. -/
def interiorTally : Statistics := { interiorNodes := 1 }

theorem adds_countReason (reason : LeafReason) :
    Adds (countReason reason) (reasonTally reason) := by
  cases reason
  all_goals
    apply adds_plus
    · intro s
      simp [reasonTally, add_eq]
    · intro s
      simp [reasonTally, add_eq, bounded]

/-- **A leaf is added to the counters.** -/
theorem records_leaf (s : Statistics) (reason : LeafReason) (depth count : Nat) :
    Records (s.recordLeaf reason depth count) (s + leafTally reason depth count) := by
  have hsum : [reasonTally reason, { leaves := 1 }, { largestLeaf := count },
      { leafDepthSum := depth }, { maxLeafDepth := depth }].sum = leafTally reason depth count := by
    simp [leafTally, add_eq, zero_eq]
  rw [← hsum]
  apply run_adds
  refine .cons (adds_countReason reason) (.cons ?_ (.cons ?_ (.cons ?_ (.cons ?_ .nil))))
  · exact adds_plus (by simp [add_eq]) (by simp [add_eq, bounded])
  · exact adds_total (by simp [add_eq])
  · exact adds_plus (by simp [add_eq]) (by simp [add_eq, bounded])
  · exact adds_total (by simp [add_eq])

/-- **An interior node is added to the counters.** -/
theorem records_interior (s : Statistics) : Records s.recordInterior (s + interiorTally) := by
  have hsum : [interiorTally].sum = interiorTally := List.sum_singleton
  rw [← hsum]
  apply run_adds
  refine .cons ?_ .nil
  exact adds_plus (by simp [interiorTally, add_eq]) (by simp [interiorTally, add_eq, bounded])

/-- **The counters of another part are added.** -/
theorem records_accumulate (s t : Statistics) : Records (s.accumulate t) (s + t) := by
  have hsum : [({ maxDepthLeaves := t.maxDepthLeaves } : Statistics),
      { underThresholdLeaves := t.underThresholdLeaves }, { cheaperLeaves := t.cheaperLeaves },
      { arbitraryLeaves := t.arbitraryLeaves }, { leaves := t.leaves },
      { largestLeaf := t.largestLeaf }, { leafDepthSum := t.leafDepthSum },
      { maxLeafDepth := t.maxLeafDepth }, { interiorNodes := t.interiorNodes },
      { chunks := t.chunks }].sum = t := by
    simp [add_eq, zero_eq]
  conv => rhs; rw [← hsum]
  apply run_adds
  refine .cons ?_ (.cons ?_ (.cons ?_ (.cons ?_ (.cons ?_ (.cons ?_ (.cons ?_ (.cons ?_
    (.cons ?_ (.cons ?_ .nil)))))))))
  all_goals
    first
    | exact adds_plus (by simp [add_eq]) (by simp [add_eq, bounded])
    | exact adds_total (by simp [add_eq])

/-- Updates that are all made are made one by one. -/
theorem run_cons_eq_ok {u : Update} {us : List Update} {s s' : Statistics}
    (h : run (u :: us) s = (s', .ok ())) : ∃ t, u s = .ok t ∧ run us t = (s', .ok ()) := by
  rw [run] at h
  split at h
  · rename_i t ht
    exact ⟨t, ht, h⟩
  · cases h

theorem le_of_plus_map {a b : Nat} {set : Nat → Statistics}
    (h : (plus a b).map set = .ok t) : a + b ≤ limit64 ∧ t = set (a + b) := by
  unfold plus addWithin at h
  split at h
  · cases h
    exact ⟨by assumption, rfl⟩
  · cases h

/-- **Counters that are added are within their widths.** -/
theorem within_of_accumulate {s' : Statistics} {u : Unit}
    (h : s.accumulate t = (s', .ok u)) : s'.Within := by
  obtain ⟨s₁, h₁, h⟩ := run_cons_eq_ok h
  obtain ⟨s₂, h₂, h⟩ := run_cons_eq_ok h
  obtain ⟨s₃, h₃, h⟩ := run_cons_eq_ok h
  obtain ⟨s₄, h₄, h⟩ := run_cons_eq_ok h
  obtain ⟨s₅, h₅, h⟩ := run_cons_eq_ok h
  obtain ⟨s₆, h₆, h⟩ := run_cons_eq_ok h
  obtain ⟨s₇, h₇, h⟩ := run_cons_eq_ok h
  obtain ⟨s₈, h₈, h⟩ := run_cons_eq_ok h
  obtain ⟨s₉, h₉, h⟩ := run_cons_eq_ok h
  obtain ⟨s₁₀, h₁₀, h⟩ := run_cons_eq_ok h
  obtain ⟨hle₁, rfl⟩ := le_of_plus_map h₁
  obtain ⟨hle₂, rfl⟩ := le_of_plus_map h₂
  obtain ⟨hle₃, rfl⟩ := le_of_plus_map h₃
  obtain ⟨hle₄, rfl⟩ := le_of_plus_map h₄
  obtain ⟨hle₅, rfl⟩ := le_of_plus_map h₅
  cases h₆
  obtain ⟨hle₇, rfl⟩ := le_of_plus_map h₇
  cases h₈
  obtain ⟨hle₉, rfl⟩ := le_of_plus_map h₉
  obtain ⟨hle₁₀, rfl⟩ := le_of_plus_map h₁₀
  cases h
  simp only [Within, bounded, List.forall_mem_cons, List.not_mem_nil, false_implies, implies_true,
    and_true]
  exact ⟨hle₁, hle₂, hle₃, hle₄, hle₅, hle₇, hle₉, hle₁₀⟩

end Statistics

end BoxTree

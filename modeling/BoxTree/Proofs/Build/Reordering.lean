import BoxTree.Proofs.Build.Endings
import BoxTree.Proofs.Build.Pairs
/-!
# Builds over reordered boxes

The order of the boxes reaches a build through the numbers of its items, which break ties when they
are sorted, and through the order in which boxes are united and items swapped. None of it is visible
in the end: builds over the same boxes in another order end in the same way, and when they are
complete they have trees of one shape and the same counters (`Builder.build_reordered`).
-/

namespace BoxTree

/-- How a build ends, without its tree, counts and texts. -/
inductive Ending where
  | complete
  | cancelled
  | faulted
  | invalidSettings
  | tooManyObjects
  | outOfMemory
  | nestedPool
  | taskPanicked
  | internal
  deriving DecidableEq, Repr

namespace Ending

/-- The kind of an error. -/
def ofError : BuildError → Ending
  | .invalidSettings _ => invalidSettings
  | .tooManyObjects _ => tooManyObjects
  | .outOfMemory _ _ => outOfMemory
  | .nestedPool _ => nestedPool
  | .taskPanicked _ => taskPanicked
  | .internal _ => internal

/-- The kind of an outcome. -/
def ofOutcome : Except Failure Outcome → Ending
  | .ok (.complete _) => complete
  | .ok .cancelled => cancelled
  | .error (.fault _) => faulted
  | .error (.error e) => ofError e

end Ending

namespace Builder

variable {builder : Builder} {boxes boxes' : List Box} {p p' : Plan} {policy policy' : Policy}
  {queue queue' : JobQueue BuildJob}

/-- The root plots over reordered boxes have a move together. -/
theorem exists_move_root (hp : p.Like p') (hperm : boxes.Perm boxes')
    (hfinite : ∀ b ∈ boxes, b.Finite) (hn : boxes.length ≤ limit32)
    (h : ∃ mv, p.move (needsBack p boxes.length) (root p boxes) = .ok mv) :
    ∃ mv, p'.move (needsBack p' boxes'.length) (root p' boxes') = .ok mv := by
  rw [← hperm.length_eq, ← needsBack_eq_of_like hp]
  exact (root_twins p p' _ _ hperm hfinite hn).exists_move hp h

/-- **What the root plots say about two endings is the same** for reordered boxes. -/
theorem Ends.ending_eq {outcome outcome' : Except Failure Outcome} (h : Ends p boxes outcome)
    (h' : Ends p' boxes' outcome') (hp : p.Like p') (hu : p.Usable (needsBack p boxes.length))
    (hu' : p'.Usable (needsBack p' boxes'.length)) (hperm : boxes.Perm boxes')
    (hfinite : ∀ b ∈ boxes, b.Finite) (hn : boxes.length ≤ limit32) :
    Ending.ofOutcome outcome = .ofOutcome outcome' := by
  have hfinite' : ∀ b ∈ boxes', b.Finite := fun b hb => hfinite b (hperm.mem_iff.2 hb)
  have hn' : boxes'.length ≤ limit32 := hperm.length_eq ▸ hn
  have hmove := exists_move_root hp hperm hfinite hn
  have hmove' := exists_move_root hp.symm hperm.symm hfinite' hn'
  have hnodes : ∀ {t t' : Growth}, Grows p (needsBack p boxes.length) (root p boxes) t →
      Grows p' (needsBack p' boxes'.length) (root p' boxes') t' → t.nodes = t'.nodes :=
    fun ht ht' => (root_matches hp.akin hu hu' hperm hfinite hn ht ht').nodes_eq
  cases h with
  | broke hm =>
    have hnone : ¬ ∃ mv, p'.move (needsBack p' boxes'.length) (root p' boxes') = .ok mv :=
      fun hmv => not_exists.2 hm (hmove' hmv)
    cases h' with
    | broke _ => rfl
    | full ht _ => exact absurd ht.exists_move hnone
    | complete ht _ => exact absurd ht.exists_move hnone
  | full ht hmany =>
    cases h' with
    | broke hm => exact absurd (hmove ht.exists_move) (not_exists.2 hm)
    | full _ _ => rfl
    | complete ht' hfew =>
      have := hnodes ht ht'
      omega
  | complete ht hfew =>
    cases h' with
    | broke hm => exact absurd (hmove ht.exists_move) (not_exists.2 hm)
    | full ht' hmany =>
      have := hnodes ht ht'
      omega
    | complete _ _ => rfl

/-- **Builds over reordered boxes end in the same way.** -/
theorem ending_eq (ha : builder.Accepted) (hfinite : ∀ b ∈ boxes, b.Finite)
    (hperm : boxes.Perm boxes') (hq : queue.waiting = []) (hq' : queue'.waiting = [])
    (hkeeps : ∀ k, policy.keeps k = true) (hkeeps' : ∀ k, policy'.keeps k = true) :
    Ending.ofOutcome (builder.build boxes policy .never queue).outcome =
      .ofOutcome (builder.build boxes' policy' .never queue').outcome := by
  have hlen := hperm.length_eq
  by_cases hn : limit32 < boxes.length
  · have hn' : limit32 < boxes'.length := hlen ▸ hn
    simp only [build, if_pos hn, if_pos hn']
    rfl
  · have hle := Nat.le_of_not_lt hn
    by_cases hempty : boxes = []
    · subst hempty
      cases hperm.nil_eq
      rw [build_empty rfl, build_empty rfl]
      rfl
    · have hempty' : boxes' ≠ [] := fun hnil => hempty (hnil ▸ hperm).eq_nil
      have hle' : boxes'.length ≤ limit32 := hlen ▸ hle
      cases hplan : plan builder.settings policy.platform boxes with
      | error f =>
        have hplan' : plan builder.settings policy'.platform boxes' = .error f :=
          plan_error_iff.2 (plan_error_iff.1 hplan)
        rw [outcome_of_plan_error hle hempty rfl hplan,
          outcome_of_plan_error hle' hempty' rfl hplan']
      | ok p =>
        cases hplan' : plan builder.settings policy'.platform boxes' with
        | error f => cases hplan.symm.trans (plan_error_iff.2 (plan_error_iff.1 hplan'))
        | ok p' =>
          have hends : Ends p boxes (builder.build boxes policy .never queue).outcome :=
            ends_of_calm ha hq hempty hle hplan hkeeps fun _ => rfl
          have hends' : Ends p' boxes' (builder.build boxes' policy' .never queue').outcome :=
            ends_of_calm ha hq' hempty' hle' hplan' hkeeps' fun _ => rfl
          exact hends.ending_eq hends' (like_of_plan hlen hplan hplan')
            (usable_of_plan ha.validate hplan) (usable_of_plan ha.validate hplan') hperm hfinite hle

/-- **The order of the boxes does not matter.** Over finite boxes, two builds that lose no job and
are never stopped, on any two platforms, end in the same way when the boxes of one are those of the
other in another order. If they are complete, all their counters are equal, and their trees have the
same kinds, depths and leaf ranges in depth first order. -/
theorem build_reordered (ha : builder.Accepted) (hfinite : ∀ b ∈ boxes, b.Finite)
    (hperm : boxes.Perm boxes') (hq : queue.waiting = []) (hq' : queue'.waiting = [])
    (hkeeps : ∀ k, policy.keeps k = true) (hkeeps' : ∀ k, policy'.keeps k = true) :
    let result := builder.build boxes policy .never queue
    let result' := builder.build boxes' policy' .never queue'
    Ending.ofOutcome result.outcome = .ofOutcome result'.outcome ∧
      ∀ tree tree', result.outcome = .ok (.complete tree) →
        result'.outcome = .ok (.complete tree') →
        result.builder.stats = result'.builder.stats ∧ tree.shape = tree'.shape := by
  intro result result'
  refine ⟨ending_eq ha hfinite hperm hq hq' hkeeps hkeeps', fun tree tree' h h' => ?_⟩
  obtain ⟨hn, -⟩ := le_of_complete h
  by_cases hempty : boxes = []
  · subst hempty
    cases hperm.nil_eq
    cases eq_empty_of_complete rfl h
    cases eq_empty_of_complete rfl h'
    have hresult : result = builder.cleared.buildEmpty queue := build_empty rfl
    have hresult' : result' = builder.cleared.buildEmpty queue' := build_empty rfl
    rw [hresult, hresult']
    exact ⟨rfl, rfl⟩
  · have hempty' : boxes' ≠ [] := fun hnil => hempty (hnil ▸ hperm).eq_nil
    obtain ⟨p, t, places, hbuilt⟩ := built_of_complete ha hq hempty h
    obtain ⟨p', t', places', hbuilt'⟩ := built_of_complete ha hq' hempty' h'
    have hlike := like_of_plan hperm.length_eq hbuilt.plan hbuilt'.plan
    obtain ⟨hshape, -, hstats⟩ := hbuilt.twins hbuilt' hlike.akin hperm hfinite hn
    exact ⟨hstats (congrArg _ hlike.settings), hshape⟩

theorem fine_reordered : row.Perm row.reverse ∧ ∃ tree tree',
    let result := fine.build row .fifo .never {}
    let result' := fine.build row.reverse .fifo .never {}
    result.outcome = .ok (.complete tree) ∧ result'.outcome = .ok (.complete tree') ∧
      result.builder.stats = result'.builder.stats ∧ tree.shape = tree'.shape := by
  have hperm : row.Perm row.reverse := (List.reverse_perm row).symm
  obtain ⟨tree, h⟩ := fine_complete
  obtain ⟨tree', h'⟩ : ∃ tree,
      (fine.build row.reverse .fifo .never {}).outcome = .ok (.complete tree) :=
    BuildResult.exists_tree (by decide +kernel)
  have hsame := (@build_reordered fine row row.reverse .fifo .fifo {} {} fine_accepted row_finite
    hperm rfl rfl (fun _ => rfl) fun _ => rfl).2 tree tree' h h'
  exact ⟨hperm, tree, tree', h, h', hsame⟩

end Builder

end BoxTree

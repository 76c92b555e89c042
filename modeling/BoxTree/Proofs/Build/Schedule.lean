import BoxTree.Proofs.Build.Platforms
import BoxTree.Proofs.Tree.Preorder
/-!
# The order of the jobs

Which job is run next is up to a policy. A build that no check stops and that loses no job is
complete where its tree has room (`Builder.complete_of_roomy`), which does not depend on the policy.
Since the tree that grows does not either, all complete builds over the same boxes agree that run on
one platform, and on any two platforms where the boxes are defined (`Builder.build_scheduled`).
-/

namespace BoxTree

namespace Builder

variable {builder : Builder} {boxes : List Box} {p : Plan} {policy policy' : Policy}
  {check check' : Check} {queue queue' : JobQueue BuildJob} {tree : Tree} {platform : Platform}

/-- A build that rests and has lost nothing ends with a tree where it has room for one. -/
theorem conclude_of_roomy {m : Machine} {sk : Sketch} {lost : List Site}
    (h : m.Tracks p (needsBack p boxes.length) boxes.length (root p boxes) sk lost)
    (hw : m.watch.aborted = false) (hr : m.running = none) (hwaiting : m.queue.waiting = [])
    (hl : lost = []) (hroom : Roomy p (needsBack p boxes.length) (root p boxes)) :
    ∃ tree, (builder.conclude p boxes.length m).outcome = .ok (.complete tree) := by
  obtain ⟨tree, stats, hok⟩ := h.assemble_of_roomy hw hr hwaiting hl hroom
  rw [conclude_eq (h.failure hw) hw hok]
  exact ⟨tree, rfl⟩

namespace Starts

variable {m : Machine} (h : Starts builder.settings boxes policy queue p m) (ha : builder.Accepted)
  (hq : queue.waiting = []) (hn : boxes.length ≤ limit32)
include h ha hq hn

/-- **In the end a build rests.** No task is running and no job waits, and where no job was dropped
and the build was not stopped, nothing is lost. -/
theorem rested (check : Check) :
    let last := m.run p policy check (Machine.enoughSteps boxes.length)
    last.running = none ∧ last.queue.waiting = [] ∧ ∃ sk lost, last.Tracks p
      (needsBack p boxes.length) boxes.length (root p boxes) sk lost ∧
      ((∀ k, policy.keeps k = true) → last.watch.aborted = false → lost = []) := by
  obtain ⟨lost, htracks, hlost, -⟩ := h.tracks hq
  have hfin := h.isFinished_iterate ha.validate hq hn check
  rw [Machine.run_eq_iterate]
  obtain ⟨sk, lost', hlast, hext⟩ := htracks.iterate (h.usable ha.validate) hn policy check
    (Machine.enoughSteps boxes.length)
  rw [Machine.isFinished, Bool.and_eq_true, Option.isNone_iff_eq_none, List.isEmpty_iff] at hfin
  exact ⟨hfin.1, hfin.2, sk, lost', hlast,
    fun hkeeps hw => (hext.kept hkeeps hw).trans (hlost hkeeps)⟩

/-- A build whose tree has room is not stopped when it is left alone. -/
theorem not_aborted (hroom : Roomy p (needsBack p boxes.length) (root p boxes))
    (hcalm : ∀ k, check k = .proceed) (k : Nat) :
    ((Machine.step p policy check)^[k] m).watch.aborted = false := by
  obtain ⟨lost, htracks, -, -⟩ := h.tracks hq
  obtain ⟨sk, lost', -, hext⟩ := htracks.iterate (h.usable ha.validate) hn policy check k
  have hidle : m.watch.aborted = false := by rw [h.machine]; rfl
  rw [← Bool.not_eq_true]
  intro hab
  rcases hext.stopped hidle hab with ⟨k, hk⟩ | hnot
  · exact hk (hcalm k)
  · exact hnot hroom

variable (hkeeps : ∀ k, policy.keeps k = true)
include hkeeps

/-- **A build that is not stopped and loses no job has nothing left to do** in the end. -/
theorem finished (hw : (m.run p policy check
      (Machine.enoughSteps boxes.length)).watch.aborted = false) :
    let last := m.run p policy check (Machine.enoughSteps boxes.length)
    last.running = none ∧ last.queue.waiting = [] ∧ ∃ sk, last.Tracks p
      (needsBack p boxes.length) boxes.length (root p boxes) sk [] := by
  obtain ⟨hr, hwaiting, sk, lost, hlast, hlost⟩ := h.rested ha hq hn check
  exact ⟨hr, hwaiting, sk, hlost hkeeps hw ▸ hlast⟩

variable (hroom : Roomy p (needsBack p boxes.length) (root p boxes))
include hroom

/-- **A build is complete where its tree has room**, when no job is lost and it is not stopped. -/
theorem complete (hw : (m.run p policy check
      (Machine.enoughSteps boxes.length)).watch.aborted = false) :
    ∃ tree, (builder.cleared.conclude p boxes.length
      (m.run p policy check (Machine.enoughSteps boxes.length))).outcome =
        .ok (.complete tree) := by
  obtain ⟨hr, hwaiting, sk, hlast⟩ := h.finished ha hq hn hkeeps hw
  exact conclude_of_roomy hlast hw hr hwaiting rfl hroom

/-- A build that is left alone is complete where its tree has room. -/
theorem complete_of_calm (hcalm : ∀ k, check k = .proceed) :
    ∃ tree, (builder.cleared.conclude p boxes.length
      (m.run p policy check (Machine.enoughSteps boxes.length))).outcome =
        .ok (.complete tree) := by
  refine h.complete ha hq hn hkeeps hroom ?_
  rw [Machine.run_eq_iterate]
  exact h.not_aborted ha hq hn hroom hcalm _

end Starts

/-- A build that no check stops is complete where its tree has room. -/
theorem complete_of_roomy (ha : builder.Accepted) (hq : queue.waiting = []) (hne : boxes ≠ [])
    (hn : boxes.length ≤ limit32) (hplan : plan builder.settings policy.platform boxes = .ok p)
    (hroom : Roomy p (needsBack p boxes.length) (root p boxes))
    (hkeeps : ∀ k, policy.keeps k = true) (hcalm : ∀ k, check k = .proceed) :
    ∃ tree, (builder.build boxes policy check queue).outcome = .ok (.complete tree) := by
  have hask : check.ask 0 = .ok false := by rw [Check.ask, hcalm]
  rw [build_eq hn hne hask]
  rcases start_cases builder.settings boxes policy queue with ⟨f, herr, -⟩ | ⟨p', m, hstart, hm⟩
  · cases hplan.symm.trans herr
  · cases hplan.symm.trans hm.plan
    rw [hstart]
    exact hm.complete_of_calm ha hq hn hkeeps hroom hcalm

/-- A complete build had room for its tree. -/
theorem Built.roomy {t : Growth} {places : List Nat} {result : Builder}
    (h : Built builder platform boxes tree p t places result) :
    Roomy p (needsBack p boxes.length) (root p boxes) :=
  ⟨t, h.grows, h.nodes, h.within⟩

/-- Builds over the same boxes on the same platform grow the same tree. -/
theorem Built.agree {p' : Plan} {t t' : Growth} {places places' : List Nat} {tree' : Tree}
    {result result' : Builder} (h : Built builder platform boxes tree p t places result)
    (h' : Built builder platform boxes tree' p' t' places' result') :
    tree'.preorder = tree.preorder ∧ result' = result := by
  cases h.plan.symm.trans h'.plan
  cases h.grows.unique h'.grows
  refine ⟨?_, h'.result.trans h.result.symm⟩
  rw [h.grown.preorder_eq, h'.grown.preorder_eq, h.grown.order, h'.grown.order]

/-- Jobs in another order on the platform of a build. -/
theorem build_alike (ha : builder.Accepted) (hq : queue.waiting = [])
    (hsame : policy'.platform = policy.platform ∨ ∀ b ∈ boxes, b.Defined) :
    builder.build boxes policy' check queue =
      builder.build boxes (policy'.on policy.platform) check queue := by
  rcases hsame with hplatform | hdefined
  · rw [← hplatform]
    rfl
  · exact (build_on ha hq hdefined policy' check policy.platform).symm

/-- **The order of the jobs does not matter.** Where one build is complete, every other one is that
keeps its jobs and is not stopped by its check. Their trees order the objects in the same way, are
the same in depth first order, and leave the same counters and bounds of the root. That holds on all
platforms where the boxes are defined, and on one platform whatever they are. -/
theorem build_scheduled (ha : builder.Accepted) (hq : queue.waiting = [])
    (hq' : queue'.waiting = []) (hkeeps : ∀ k, policy'.keeps k = true)
    (hcalm : ∀ k, check' k = .proceed)
    (hsame : policy'.platform = policy.platform ∨ ∀ b ∈ boxes, b.Defined)
    (h : (builder.build boxes policy check queue).outcome = .ok (.complete tree)) :
    ∃ tree', (builder.build boxes policy' check' queue').outcome = .ok (.complete tree') ∧
      tree'.order = tree.order ∧ tree'.preorder = tree.preorder ∧
      (builder.build boxes policy' check' queue').builder =
        (builder.build boxes policy check queue).builder := by
  obtain ⟨hn, hask⟩ := le_of_complete h
  have hask' : check'.ask 0 = .ok false := by rw [Check.ask, hcalm]
  by_cases hempty : boxes = []
  · subst hempty
    cases eq_empty_of_complete rfl h
    rw [build_empty hask, build_empty hask']
    exact ⟨_, rfl, rfl, rfl, rfl⟩
  · rw [build_alike ha hq' hsame]
    obtain ⟨p, t, places, hbuilt⟩ := built_of_complete ha hq hempty h
    obtain ⟨tree', h'⟩ :
        ∃ tree', (builder.build boxes (policy'.on policy.platform) check' queue').outcome =
          .ok (.complete tree') :=
      complete_of_roomy ha hq' hempty hn hbuilt.plan hbuilt.roomy hkeeps hcalm
    obtain ⟨p', t', places', hbuilt'⟩ := built_of_complete ha hq' hempty h'
    obtain ⟨hpreorder, hresult⟩ := hbuilt.agree hbuilt'
    refine ⟨tree', h', ?_, hpreorder, hresult⟩
    change tree'.preorder.order = tree.preorder.order
    rw [hpreorder]

theorem fine_scheduled : ∃ tree tree',
    (fine.build row .fifo .never {}).outcome = .ok (.complete tree) ∧
      (fine.build row .lifo .never {}).outcome = .ok (.complete tree') ∧
      tree'.order = tree.order ∧ tree'.preorder = tree.preorder ∧
      (fine.build row .lifo .never {}).builder = (fine.build row .fifo .never {}).builder := by
  obtain ⟨tree, h⟩ := fine_complete
  obtain ⟨tree', h'⟩ := @build_scheduled fine row .fifo .lifo .never .never {} {} tree fine_accepted
    rfl rfl (fun _ => rfl) (fun _ => rfl) (.inr fun b hb => (row_finite b hb).defined) h
  exact ⟨tree, tree', h, h'⟩

end Builder

end BoxTree

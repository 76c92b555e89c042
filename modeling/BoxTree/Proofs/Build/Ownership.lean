import BoxTree.Proofs.Machine.Ownership
import BoxTree.Proofs.Tree.Finished
/-!
# The objects of a build are owned

A build is owned when it starts, and therefore at every point: its leaves are those that its steps
have made (`Builder.build_owned`).
-/

namespace BoxTree

namespace Builder

variable {builder : Builder} {boxes : List Box} {policy : Policy} {check : Check}
  {queue : JobQueue BuildJob}

/-- **Every build is owned at every point**, for any boxes, any accepted settings, any check, any
platform, and whatever order its jobs are run in. -/
theorem build_owned (ha : builder.Accepted) (hq : queue.waiting = [])
    (hn : boxes.length ≤ limit32) :
    match start builder.settings boxes policy queue with
    | .error f => ¬ (Failure.fault f).IsAccess
    | .ok (p, m) => ∀ k,
      ((Machine.step p policy check)^[k] m).Owned p policy check (needsBack p boxes.length)
        boxes.length (m.leavesMade p policy check k) := by
  rcases start_cases builder.settings boxes policy queue with ⟨f, hplan, heq⟩ | ⟨p, m, heq, hm⟩
  · rw [heq]
    rcases bind_eq_error hplan with hplan | ⟨_, -, hplan⟩
    · obtain ⟨operation, rfl⟩ := mulWithin_error hplan
      exact id
    · cases hplan
  · rw [heq]
    intro k
    have husable := hm.usable ha.validate
    obtain ⟨lost, htracks, hlost, -⟩ := hm.tracks hq
    obtain ⟨sk, lost', hnow, hext⟩ := htracks.iterate husable hn policy check k
    obtain ⟨leaves, hleaves, hmade⟩ := hext.leaves
    refine hnow.owned husable hn policy check ?_ fun hkeeps hw => ?_
    · have hfirst := hleaves.map Prod.fst
      rw [List.map_append, hmade] at hfirst
      exact hfirst.trans (.of_eq (List.append_nil _))
    · exact (hext.kept hkeeps hw).trans (hlost hkeeps)

theorem fine_owned : ∃ p m, start fine.settings row .lifo {} = .ok (p, m) ∧
    ∀ k, ((Machine.step p .lifo .never)^[k] m).Owned p .lifo .never (needsBack p 3) 3
      (m.leavesMade p .lifo .never k) := by
  have howned := @build_owned fine row .lifo .never {} fine_accepted rfl (by decide)
  rcases start_cases fine.settings row .lifo {} with ⟨f, hplan, -⟩ | ⟨p, m, heq, -⟩
  · cases hplan
  · rw [heq] at howned
    exact ⟨p, m, heq, howned⟩

end Builder

end BoxTree

import BoxTree.Proofs.Build.Halting
import BoxTree.Proofs.Growth.Pieces
import BoxTree.Proofs.Machine.Failing
/-!
# How a build ends that is left alone

A build that no check stops and that loses no job ends in one of three ways, and its root plot says
in which: a task fails where the root has no move, the build is complete where the root has a tree
whose nodes can be numbered, and has too many objects where they cannot (`Builder.ends_of_calm`).
-/

namespace BoxTree

namespace Builder

/-- How a build ends whose root plot is known. -/
inductive Ends (p : Plan) (boxes : List Box) : Except Failure Outcome → Prop where
  | broke {text : String} (hm : ∀ mv, p.move (needsBack p boxes.length) (root p boxes) ≠ .ok mv) :
    Ends p boxes (.error (.error (.taskPanicked text)))
  | full {t : Growth} {count : Nat} (ht : Grows p (needsBack p boxes.length) (root p boxes) t)
      (hnodes : limit32 < t.nodes) : Ends p boxes (.error (.error (.tooManyObjects count)))
  | complete {t : Growth} {tree : Tree}
      (ht : Grows p (needsBack p boxes.length) (root p boxes) t) (hnodes : t.nodes ≤ limit32) :
    Ends p boxes (.ok (.complete tree))

variable {builder : Builder} {boxes : List Box} {p : Plan} {policy : Policy} {check : Check}
  {queue : JobQueue BuildJob} {m : Machine} {t : Growth}

/-- The tree of a root plot that has a move exists, and its nodes can be counted. -/
theorem exists_grows_root (hp : p.Usable (needsBack p boxes.length)) (hne : boxes ≠ [])
    (hn : boxes.length ≤ limit32) {mv : Move}
    (hm : p.move (needsBack p boxes.length) (root p boxes) = .ok mv) :
    ∃ t, Grows p (needsBack p boxes.length) (root p boxes) t ∧ t.stats.Within := by
  obtain ⟨t, ht⟩ := exists_grows_of_move hp (root_sound _) hm
  obtain ⟨hregion, -, hproper⟩ := ht.proper hp (root_sound _)
  refine ⟨t, ht, hproper.within ?_ ?_ ?_⟩
  · rw [hregion]
    rfl
  · rw [hregion]
    exact List.length_pos_iff.2 hne
  · rw [hregion]
    exact hn

namespace Starts

variable (h : Starts builder.settings boxes policy queue p m) (ha : builder.Accepted)
  (hq : queue.waiting = []) (hn : boxes.length ≤ limit32) (hkeeps : ∀ k, policy.keeps k = true)
include h ha hq hn hkeeps

/-- A build that was not stopped has drawn a tree of its root. -/
theorem exists_grows (hw : (m.run p policy check
    (Machine.enoughSteps boxes.length)).watch.aborted = false) :
    ∃ t, Grows p (needsBack p boxes.length) (root p boxes) t := by
  obtain ⟨hr, hwaiting, sk, hlast⟩ := h.finished ha hq hn hkeeps hw
  obtain ⟨t, ht⟩ : ∃ t, Sketch.Becomes p (needsBack p boxes.length) sk t :=
    Sketch.exists_becomes (hlast.plots_eq_nil hr hwaiting rfl)
  exact ⟨t, (hlast.becomes t).1 ht⟩

/-- A build that was not stopped has too many nodes where the tree of its root has. -/
theorem full_of_grows (hw : (m.run p policy check
      (Machine.enoughSteps boxes.length)).watch.aborted = false)
    (hgrows : Grows p (needsBack p boxes.length) (root p boxes) t) (hwithin : t.stats.Within)
    (hnodes : limit32 < t.nodes) :
    ∃ count, (builder.cleared.conclude p boxes.length
      (m.run p policy check (Machine.enoughSteps boxes.length))).outcome =
        .error (.error (.tooManyObjects count)) := by
  obtain ⟨hr, hwaiting, sk, hlast⟩ := h.finished ha hq hn hkeeps hw
  have ht := (hlast.becomes t).2 hgrows
  have hdone := hlast.plots_eq_nil hr hwaiting rfl
  rw [← ht.stats_eq hdone] at hwithin
  rw [← ht.length_places_eq hdone] at hnodes
  rcases hlast.assemble_cases hw hr hwaiting rfl hwithin with ⟨-, count, hfull⟩ | ⟨hle, -⟩
  · refine ⟨count, ?_⟩
    simp only [conclude, hlast.failure hw, hw, hfull]
    rfl
  · exact absurd hle (Nat.not_le_of_lt hnodes)

/-- **A build that is left alone ends as its root plot says.** -/
theorem ends (hne : boxes ≠ []) (hcalm : ∀ k, check k = .proceed) :
    Ends p boxes (builder.cleared.conclude p boxes.length
      (m.run p policy check (Machine.enoughSteps boxes.length))).outcome := by
  have husable := h.usable ha.validate
  have hroot : ∀ mv, p.move (needsBack p boxes.length) (root p boxes) = .ok mv →
      ∃ t, Grows p (needsBack p boxes.length) (root p boxes) t ∧ t.stats.Within :=
    fun _ hm => exists_grows_root husable hne hn hm
  obtain ⟨lost, htracks, -, -⟩ := h.tracks hq
  have hfares := htracks.fares husable hn hroot hcalm policy
    (fun c hc => by cases List.mem_singleton.1 hc; rfl) (.on (by rw [h.machine]; rfl))
    (Machine.enoughSteps boxes.length)
  rw [← Machine.run_eq_iterate] at hfares
  by_cases hmove : ∃ mv, p.move (needsBack p boxes.length) (root p boxes) = .ok mv
  · obtain ⟨mv, hm⟩ := hmove
    obtain ⟨t, hgrows, hwithin⟩ := hroot mv hm
    by_cases hnodes : t.nodes ≤ limit32
    · obtain ⟨tree, heq⟩ := h.complete_of_calm ha hq hn hkeeps ⟨t, hgrows, hnodes, hwithin⟩ hcalm
      rw [heq]
      exact .complete hgrows hnodes
    · have hmany := Nat.lt_of_not_le hnodes
      cases hfares with
      | on hw =>
        obtain ⟨count, heq⟩ := h.full_of_grows ha hq hn hkeeps hw hgrows hwithin hmany
        rw [heq]
        exact .full hgrows hmany
      | full hf _ =>
        rw [outcome_of_failure hf]
        exact .full hgrows hmany
      | broke _ hnone => exact absurd hm (hnone mv)
  · rw [not_exists] at hmove
    cases hfares with
    | on hw =>
      obtain ⟨t, hgrows⟩ := h.exists_grows ha hq hn hkeeps hw
      obtain ⟨mv, hm⟩ := hgrows.exists_move
      exact absurd hm (hmove mv)
    | full _ hm => exact absurd hm (not_exists.2 hmove)
    | broke hf _ =>
      rw [outcome_of_failure hf]
      exact .broke hmove

end Starts

/-- **A build that is left alone** ends as the root plot of its plan says. -/
theorem ends_of_calm (ha : builder.Accepted) (hq : queue.waiting = []) (hne : boxes ≠ [])
    (hn : boxes.length ≤ limit32) (hplan : plan builder.settings policy.platform boxes = .ok p)
    (hkeeps : ∀ k, policy.keeps k = true) (hcalm : ∀ k, check k = .proceed) :
    Ends p boxes (builder.build boxes policy check queue).outcome := by
  have hask : check.ask 0 = .ok false := by rw [Check.ask, hcalm]
  rw [build_eq hn hne hask]
  rcases start_cases builder.settings boxes policy queue with ⟨f, herr, -⟩ | ⟨p', m, hstart, hm⟩
  · cases hplan.symm.trans herr
  · cases hplan.symm.trans hm.plan
    rw [hstart]
    exact hm.ends ha hq hn hkeeps hne hcalm

/-- A build does not begin that has too many pieces. -/
theorem outcome_of_plan_error {f : Fault} (hn : boxes.length ≤ limit32) (hne : boxes ≠ [])
    (hask : check.ask 0 = .ok false) (hplan : plan builder.settings policy.platform boxes = .error f) :
    (builder.build boxes policy check queue).outcome = .error (.fault f) := by
  rw [build_eq hn hne hask]
  rcases start_cases builder.settings boxes policy queue with ⟨f', herr, hstart⟩ | ⟨p, m, -, hm⟩
  · cases hplan.symm.trans herr
    rw [hstart]
  · cases hplan.symm.trans hm.plan

/-- **A build that is left alone is complete** where its root can be searched and partitioned. -/
theorem complete_of_able (ha : builder.Accepted) (hq : queue.waiting = []) (hne : boxes ≠ [])
    (hn : boxes.length ≤ 2 ^ 31) (hplan : plan builder.settings policy.platform boxes = .ok p)
    (hsearch : p.CanSearch boxes.length) (hpart : p.CanPart (needsBack p boxes.length) boxes.length)
    (hkeeps : ∀ k, policy.keeps k = true) (hcalm : ∀ k, check k = .proceed) :
    ∃ tree, (builder.build boxes policy check queue).outcome = .ok (.complete tree) := by
  have husable := usable_of_plan ha.validate hplan
  have hable : (root p boxes).Able p (needsBack p boxes.length) boxes.length :=
    ⟨root_sound _, fun _ => hsearch, fun _ => hpart⟩
  obtain ⟨t, ht⟩ := hable.exists_grows husable
  have hroom := Roomy.of_grows husable (root_sound _) rfl (List.length_pos_iff.2 hne) hn ht
  exact complete_of_roomy ha hq hne (hn.trans (by decide)) hplan hroom hkeeps hcalm

/-- An exact build that is left alone is complete on any number of threads: sorted arrays are never
cut into pieces. -/
theorem complete_of_exact (ha : builder.Accepted) (hq : queue.waiting = []) (hne : boxes ≠ [])
    (hn : boxes.length ≤ 2 ^ 31) (hplan : plan builder.settings policy.platform boxes = .ok p)
    (hexact : p.search = .exact) (hkeeps : ∀ k, policy.keeps k = true)
    (hcalm : ∀ k, check k = .proceed) :
    ∃ tree, (builder.build boxes policy check queue).outcome = .ok (.complete tree) :=
  complete_of_able ha hq hne hn hplan (fun hbinning => nomatch hexact.symm.trans hbinning)
    (fun hbinning => nomatch hexact.symm.trans hbinning) hkeeps hcalm

end Builder

end BoxTree

import BoxTree.Proofs.Machine.Runs
/-!
# Builds that fail

A build that its check never stops fails for one of two reasons. Either its root plot has no move,
because a count would overflow; or the root has a tree, and the chunk of a task is full. Which of
them it is does not depend on where in the run the build has failed (`Machine.Tracks.fares`).
-/

namespace BoxTree

open Asking Sketch

namespace Machine

/-- How a build fares that no check stops. -/
inductive Fares (p : Plan) (back : Bool) (root : Plot) (m : Machine) : Prop where
  | on (hw : m.watch.aborted = false)
  /-- There was no slot for a node, though there was for the root. -/
  | full {count : Nat} (hf : m.failure = some (.tooManyObjects count))
      (hm : ∃ mv, p.move back root = .ok mv)
  /-- There was no move. -/
  | broke {text : String} (hf : m.failure = some (.taskPanicked text))
      (hm : ∀ mv, p.move back root ≠ .ok mv)

variable {p : Plan} {back : Bool} {n : Nat} {root : Plot} {m : Machine} {sk : Sketch}
  {lost : List Site} {policy : Policy} {check : Check} {e : BuildError} {f : Failure}

/-- The first failure is kept. -/
theorem failure_step (p : Plan) (policy : Policy) (check : Check) (h : m.failure = some e) :
    (m.step p policy check).failure = some e := by
  have hkept : ∀ (m' : Machine) (f : Failure), m'.failure = m.failure →
      (m'.fail f).failure = some e := by
    intro m' f hm'
    change some (m'.failure.getD _) = _
    rw [hm', h]
    rfl
  have hsteps := step_steps p policy check m
  generalize m.step p policy check = m' at hsteps ⊢
  cases hsteps with
  | rest hr hw => exact h
  | refuse hr hj hask => exact hkept _ _ rfl
  | skip hr hj hask => exact h
  | start hr hj hask => exact h
  | finish hr ht => exact h
  | balk hr ht hd => exact hkept _ _ rfl
  | spoil hr ht hd hperform => exact hkept _ _ rfl
  | advance hr ht hd hperform => exact h

/-- A failure of a build that had not failed is its own. -/
theorem failure_fail (h : m.failure = none) (f : Failure) :
    (m.fail f).failure = some f.toError := by
  change some (m.failure.getD _) = _
  rw [h]
  rfl

section Step

variable (h : Tracks p back n root m sk lost) (hp : p.Usable back)
  (hroot : ∀ mv, p.move back root = .ok mv → ∃ t, Grows p back root t ∧ t.stats.Within)
  (hw : m.watch.aborted = false) {task : Task} {work : Work} {rest : List Work}
  (hr : m.running = some task) (ht : task.pending = work :: rest)
include h hroot hw hr ht

/-- Where the plot that is next has no move, the root has none. -/
theorem Tracks.root_broke {f : Fault}
    (hm : p.move back (p.plot m.buffers work.halved work.region) = .error f) (mv : Move) :
    p.move back root ≠ .ok mv := by
  intro hmv
  obtain ⟨t, hgrows, -⟩ := hroot mv hmv
  obtain ⟨mv', hm', -⟩ := h.move_of_grows hgrows hw hr ht
  cases hm.symm.trans hm'

/-- Where the root has a tree that can be counted, the next move can be. -/
theorem Tracks.counted (hmv : ∃ mv, p.move back root = .ok mv) {mv : Move}
    (hm : p.move back (p.plot m.buffers work.halved work.region) = .ok mv) :
    (task.stats + mv.tally work.region).Within := by
  obtain ⟨mv', hmv⟩ := hmv
  obtain ⟨t, hgrows, hwithin⟩ := hroot mv' hmv
  obtain ⟨mv'', hm', -, more, hsum⟩ := h.move_of_grows hgrows hw hr ht
  cases hm.symm.trans hm'
  rw [hsum] at hwithin
  exact hwithin.left

include hp

/-- **A decision that cannot be carried out** fails as its build does. -/
theorem Tracks.fares_spoil (hstarted : ∀ c ∈ sk.plots, c.2 = root ∨ ∃ mv, p.move back root = .ok mv)
    {d : Decision} {w : Watch} {f : Failure}
    (hv : p.verdict (p.plot m.buffers work.halved work.region) = .ok d)
    (hperform : Effect.perform p (effectOf m task) work d = .error f) :
    Fares p back root (fail { m with running := none, watch := w, buffers := .released } f) := by
  have hfail := failure_fail (m := { m with running := none, watch := w, buffers := .released })
    (h.failure hw) f
  have hmoves : ∀ mv, p.move back (p.plot m.buffers work.halved work.region) = .ok mv →
      ∃ mv, p.move back root = .ok mv := by
    intro mv hm
    rcases hstarted _ (h.mem_plots hr ht (h.fits hw).2) with heq | hmv
    · exact ⟨mv, heq ▸ hm⟩
    · exact hmv
  have hperforms := h.performs hw hr ht hp hv
  rw [hperform] at hperforms
  cases hperforms with
  | full hm _ => exact .full hfail (hmoves _ hm)
  | uncounted hm hover => exact absurd (h.counted hroot hw hr ht (hmoves _ hm) hm) hover
  | broke hm => exact .broke hfail (h.root_broke hroot hw hr ht hm)

end Step

/-- **Every step of a build that no check stops** goes on, or fails as the root plot says. -/
theorem Tracks.fares_step (hp : p.Usable back) (hn : n ≤ limit32)
    (hroot : ∀ mv, p.move back root = .ok mv → ∃ t, Grows p back root t ∧ t.stats.Within)
    (hcalm : ∀ k, check k = .proceed) (policy : Policy) (h : Tracks p back n root m sk lost)
    (hstarted : ∀ c ∈ sk.plots, c.2 = root ∨ ∃ mv, p.move back root = .ok mv)
    (hm : m.Fares p back root) : (m.step p policy check).Fares p back root := by
  have hstop : ¬ ∃ k, check k = .stop := fun ⟨k, hk⟩ => nomatch (hcalm k).symm.trans hk
  cases hm with
  | full hf hmv => exact .full (failure_step p policy check hf) hmv
  | broke hf hmv => exact .broke (failure_step p policy check hf) hmv
  | on hw =>
    have hidle : ¬ (m.watch.aborted = true ∨ ∃ k, check k = .stop) := by
      rw [hw]
      exact not_or.2 ⟨Bool.false_ne_true, hstop⟩
    have hsteps := step_steps p policy check m
    generalize m.step p policy check = m' at hsteps ⊢
    cases hsteps with
    | rest hr hq => exact .on hw
    | refuse hr hj hask =>
      obtain ⟨k, text, hk, -⟩ := ask_error hask
      cases (hcalm k).symm.trans hk
    | skip hr hj hask => exact absurd (ask_true hask).2 hidle
    | start hr hj hask => exact .on (ask_false hask).1
    | finish hr ht => exact .on hw
    | @balk task work rest f w hr ht hd =>
      have hdecides := h.decides hw hr ht hn check
      rw [hd] at hdecides
      cases hdecides with
      | @failed k text _ hk => cases (hcalm k).symm.trans hk
      | @broke f _ hv =>
        have hmove : p.move back (p.plot m.buffers work.halved work.region) = .error f := by
          rw [Plan.move, hv]
          rfl
        have hfail := failure_fail (m := { m with running := none, watch := w }) (h.failure hw)
          (.fault f)
        exact .broke hfail (h.root_broke hroot hw hr ht hmove)
    | @spoil task work rest d table f w hr ht hd hperform =>
      have hdecides := h.decides hw hr ht hn check
      rw [hd] at hdecides
      cases hdecides with
      | stopped hab hwhy => exact absurd hwhy hidle
      | done _ _ hv => exact h.fares_spoil hp hroot hw hr ht hstarted hv hperform
    | @advance task work rest d table e w hr ht hd hperform =>
      have hdecides := h.decides hw hr ht hn check
      rw [hd] at hdecides
      cases hdecides with
      | stopped hab hwhy => exact absurd hwhy hidle
      | done _ hw' _ => exact .on hw'

/-- What a plot below the root says of it: the root has a move. -/
theorem passes_started (p : Plan) (back : Bool) (root : Plot) :
    p.Passes back fun c => c = root ∨ ∃ mv, p.move back root = .ok mv := by
  intro q mv hq hm
  have hmv : ∃ mv, p.move back root = .ok mv := by
    rcases hq with rfl | hmv
    · exact ⟨mv, hm⟩
    · exact hmv
  cases mv with
  | leaf reason => trivial
  | halve stock => exact .inr hmv
  | fork apart left right => exact ⟨.inr hmv, .inr hmv⟩

/-- **Every run of a build that no check stops** goes on, or has failed as the root plot says. -/
theorem Tracks.fares (hp : p.Usable back) (hn : n ≤ limit32)
    (hroot : ∀ mv, p.move back root = .ok mv → ∃ t, Grows p back root t ∧ t.stats.Within)
    (hcalm : ∀ k, check k = .proceed) (policy : Policy) (h : Tracks p back n root m sk lost)
    (hbare : ∀ c ∈ sk.plots, c.2 = root) (hm : m.Fares p back root) (k : Nat) :
    ((Machine.step p policy check)^[k] m).Fares p back root := by
  induction k with
  | zero => exact hm
  | succ k ih =>
    obtain ⟨sk', lost', hk, hext⟩ := h.iterate hp hn policy check k
    rw [Function.iterate_succ_apply']
    exact hk.fares_step hp hn hroot hcalm policy
      (hext.passed _ (passes_started p back root) fun c hc => .inl (hbare c hc)) ih

end Machine

end BoxTree

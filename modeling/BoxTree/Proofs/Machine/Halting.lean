import BoxTree.Proofs.Asking.Polls
import BoxTree.Proofs.Machine.Runs
/-!
# Builds that are told to stop

The watch of a build without nested threads has heard every answer of the check, and a check that
failed has left its text as the failure of the build (`Machine.Hears`). From the step that hears
the answer to stop on nothing changes any more but the queue: tasks end without a report, and jobs
are taken off it without being started (`Machine.Tracks.untouched`).
-/

namespace BoxTree

open Asking

namespace Machine

/-- A build in progress whose watch has heard the check. -/
inductive Hears (check : Check) (m : Machine) : Prop where
  | on (h : m.watch.Follows check) (hf : m.failure = none)
  /-- The check has failed inside a task. -/
  | failed {k : Nat} {text : Option String} (hcalm : check.Calm k) (h : check k = .failed text)
      (hw : m.watch = ⟨k + 1, true⟩)
      (hf : m.failure = some (.taskPanicked (text.getD "unknown panic")))

/-- A build in which no node was written, no object moved and no job submitted since another
one. -/
structure Untouched (m m' : Machine) : Prop where
  buffers : m'.buffers = m.buffers
  reports : m'.reports = m.reports
  nextChunk : m'.nextChunk = m.nextChunk
  submitted : m'.queue.submitted = m.queue.submitted
  running : ∀ t', m'.running = some t' →
    ∃ t, m.running = some t ∧ t'.chunk = t.chunk ∧ t'.stats = t.stats

variable {p : Plan} {back : Bool} {n k : Nat} {root : Plot} {m m' m'' : Machine} {sk : Sketch}
  {lost : List Site} {policy : Policy} {check : Check} {w : Watch}

theorem Untouched.refl (m : Machine) : Untouched m m :=
  ⟨rfl, rfl, rfl, rfl, fun t ht => ⟨t, ht, rfl, rfl⟩⟩

theorem Untouched.trans (h : Untouched m m') (h' : Untouched m' m'') : Untouched m m'' := by
  refine ⟨h'.buffers.trans h.buffers, h'.reports.trans h.reports, h'.nextChunk.trans h.nextChunk,
    h'.submitted.trans h.submitted, fun t'' ht'' => ?_⟩
  obtain ⟨t', ht', hchunk', hstats'⟩ := h'.running t'' ht''
  obtain ⟨t, ht, hchunk, hstats⟩ := h.running t' ht'
  exact ⟨t, ht, hchunk'.trans hchunk, hstats'.trans hstats⟩

/-- A task that ends leaves nothing behind but its report. -/
theorem untouched_of_idle (hb : m'.buffers = m.buffers) (hreports : m'.reports = m.reports)
    (hn : m'.nextChunk = m.nextChunk) (hs : m'.queue.submitted = m.queue.submitted)
    (hr : m'.running = none) : Untouched m m' := by
  refine ⟨hb, hreports, hn, hs, fun t ht => ?_⟩
  rw [hr] at ht
  cases ht

/-- A build all of whose questions were answered with leave to proceed goes on. -/
theorem Hears.aborted (h : m.Hears check) (hcalm : check.Calm m.watch.polls) :
    m.watch.aborted = false := by
  cases h with
  | on h hf =>
    rw [← Bool.not_eq_true]
    intro hab
    obtain ⟨k, hk, -, hstop⟩ := h.stopped hab
    cases (hcalm k (by omega)).symm.trans hstop
  | @failed k text _ hfailed hw hf =>
    have hlt : k < m.watch.polls := by
      rw [hw]
      exact Nat.lt_succ_self k
    cases (hcalm k hlt).symm.trans hfailed

/-- **A build that has asked a question that was not answered with leave to proceed** has asked no
other one since, and is to stop. -/
theorem Hears.turned (h : m.Hears check) (hcalm : check.Calm k) (hk : check k ≠ .proceed)
    (hlt : k < m.watch.polls) : m.watch = ⟨k + 1, true⟩ := by
  have hlast : ∀ {last}, check.Calm last → check last ≠ .proceed → k ≤ last → last = k := by
    intro last hcalm' hlast hle
    rcases Nat.lt_or_eq_of_le hle with hlt | rfl
    · exact absurd (hcalm' k hlt) hk
    · rfl
  cases h with
  | on h hf =>
    cases hab : m.watch.aborted with
    | false => exact absurd (h.calm hab k hlt) hk
    | true =>
      obtain ⟨last, hpolls, hcalm', hstop⟩ := h.stopped hab
      have := hlast hcalm' (by rw [hstop]; nofun) (by omega)
      subst this
      rw [← hpolls, ← hab]
  | @failed last text hcalm' hfailed hw hf =>
    rw [hw] at hlt ⊢
    have := hlast hcalm' (by rw [hfailed]; nofun) (Nat.le_of_lt_succ hlt)
    rw [this]

/-- A build that was told to stop has not failed. -/
theorem Hears.failure_of_stop (h : m.Hears check) (hw : m.watch = ⟨k + 1, true⟩)
    (hk : check k = .stop) : m.failure = none := by
  cases h with
  | on h hf => exact hf
  | failed hcalm hfailed hw' hf =>
    cases hw.symm.trans hw'
    cases hk.symm.trans hfailed

/-- A build whose check has failed keeps its text. -/
theorem Hears.failure_of_failed {text : Option String} (h : m.Hears check)
    (hw : m.watch = ⟨k + 1, true⟩) (hk : check k = .failed text) :
    m.failure = some (.taskPanicked (text.getD "unknown panic")) := by
  cases h with
  | on h hf =>
    obtain ⟨last, hlast, -, hstop⟩ := h.stopped (congrArg Watch.aborted hw)
    rw [hw] at hlast
    cases hlast
    cases hk.symm.trans hstop
  | failed hcalm hfailed hw' hf =>
    cases hw.symm.trans hw'
    cases hk.symm.trans hfailed
    exact hf

/-- What a build hears that is not to stop and asks on. -/
theorem Hears.follows (h : m.Hears check) (hw : m.watch.aborted = false) :
    m.watch.Follows check ∧ m.failure = none := by
  cases h with
  | on h hf => exact ⟨h, hf⟩
  | failed hcalm h hw' hf =>
    rw [hw'] at hw
    cases hw

/-- A failure of the check becomes the failure of the build, which had none. -/
theorem hears_fail {α : Type} {f : Failure} (hf : m.failure = none)
    (h : Heard check ((.error f : Except Failure α), m.watch))
    (hcheck : ∃ text, f = .fault (.check text)) : (m.fail f).Hears check := by
  obtain ⟨text, rfl⟩ := hcheck
  generalize hw : m.watch = w at h
  cases h with
  | on h hown => exact absurd rfl (hown text)
  | failed hcalm hk =>
    refine .failed hcalm hk ?_ ?_
    · change { m.watch with aborted := true } = _
      rw [hw]
    · change some (m.failure.getD _) = _
      rw [hf]
      rfl

/-- **Work in a build that has heard the check** is heard as well, or is not done at all where the
build is to stop. -/
theorem Hears.work {α : Type} {work : Asking Watch α} {r : Except Failure α} (h : m.Hears check)
    (hl : Listens check work)
    (hidle : m.watch.aborted = true → ∃ a, work.runFrom m.watch = (.ok a, m.watch))
    (hrun : work.runFrom m.watch = (r, w)) :
    (∃ a, r = .ok a ∧ w = m.watch) ∨ Heard check (r, w) ∧ m.failure = none := by
  cases hab : m.watch.aborted with
  | true =>
    obtain ⟨a, ha⟩ := hidle hab
    cases ha.symm.trans hrun
    exact .inl ⟨a, rfl, rfl⟩
  | false =>
    obtain ⟨hfollows, hf⟩ := h.follows hab
    exact .inr ⟨hrun ▸ hl m.watch hfollows, hf⟩

theorem Hears.ask {r : Except Failure Bool} (h : m.Hears check)
    (hask : (Watch.shouldStop check).runFrom m.watch = (r, w)) :
    (∃ a, r = .ok a ∧ w = m.watch) ∨ Heard check (r, w) ∧ m.failure = none :=
  h.work listens_shouldStop (fun hab => ⟨_, ask_of_aborted check hab⟩) hask

theorem Hears.decide (h : m.Hears check) (hnested : p.nested = false) {t : Task} {work : Work}
    {r : Except Failure (Decision × Array Scalar)}
    (hd : (Task.decide p (Watch.shouldStop check) m.buffers t.table work).runFrom m.watch =
      (r, w)) :
    (∃ a, r = .ok a ∧ w = m.watch) ∨ Heard check (r, w) ∧ m.failure = none :=
  h.work (Task.listens_decide hnested m.buffers t.table work)
    (fun hab => ⟨_, Task.decide_of_aborted p check m.buffers t.table work hab⟩) hd

/-- A build keeps what it has heard where its watch and its failure stay the same. -/
theorem Hears.of_eq (h : m.Hears check) (hw : m'.watch = m.watch) (hf : m'.failure = m.failure) :
    m'.Hears check := by
  cases h with
  | on h hnone => exact .on (hw ▸ h) (hf.trans hnone)
  | failed hcalm hk hw' hf' => exact .failed hcalm hk (hw.trans hw') (hf.trans hf')

section Step

variable (h : Tracks p back n root m sk lost) (hp : p.Usable back) (hn : n ≤ limit32)
  (hroom : Roomy p back root)
include h hp hn hroom

/-- **A task with room for its tree** fails only where its check does, and a build that is to stop
carries nothing out. -/
theorem Tracks.decided {t : Task} {work : Work} {rest : List Work} (hr : m.running = some t)
    (ht : t.pending = work :: rest) {r : Except Failure (Decision × Array Scalar)}
    (hd : (Task.decide p (Watch.shouldStop check) m.buffers t.table work).runFrom m.watch =
      (r, w)) :
    (∃ text, r = .error (.fault (.check text))) ∨
      ∃ d table e, r = .ok (d, table) ∧ Effect.perform p (effectOf m t) work d = .ok e ∧
        (w.aborted = true → e = effectOf m t) := by
  by_cases hw : m.watch.aborted = true
  · cases (Task.decide_of_aborted p check m.buffers t.table work hw).symm.trans hd
    exact .inr ⟨_, _, _, rfl, rfl, fun _ => rfl⟩
  · rw [Bool.not_eq_true] at hw
    have hdecides := h.decides hw hr ht hn check
    rw [hd] at hdecides
    cases hdecides with
    | stopped => exact .inr ⟨_, _, _, rfl, rfl, fun _ => rfl⟩
    | @done d table _ _ hw' hv =>
      cases hperform : Effect.perform p (effectOf m t) work d with
      | error f => exact absurd hroom (h.not_roomy_of_perform hw hr ht hp hv hperform)
      | ok e => exact .inr ⟨d, table, e, rfl, hperform, fun hab => by rw [hw'] at hab; cases hab⟩
    | failed => exact .inl ⟨_, rfl⟩
    | broke hv => exact absurd hroom (h.not_roomy_of_verdict hw hr ht hv)

/-- **Every step hears what the check answers.** -/
theorem Tracks.hears_step (hnested : p.nested = false) (policy : Policy) (hm : m.Hears check) :
    (m.step p policy check).Hears check := by
  have hsteps := step_steps p policy check m
  generalize m.step p policy check = m' at hsteps ⊢
  cases hsteps with
  | rest hr hw => exact hm
  | @refuse j queue f w hr hj hask =>
    obtain ⟨k, text, -, rfl⟩ := ask_error hask
    rcases hm.ask hask with ⟨a, hok, -⟩ | ⟨hheard, hf⟩
    · cases hok
    · exact hears_fail (m := { m with queue := queue, watch := w }) hf hheard ⟨text, rfl⟩
  | @skip j queue w hr hj hask =>
    rcases hm.ask hask with ⟨a, -, rfl⟩ | ⟨⟨hw, -⟩, hf⟩
    · exact hm.of_eq rfl rfl
    · exact .on hw hf
  | @start j queue w hr hj hask =>
    rcases hm.ask hask with ⟨a, -, rfl⟩ | ⟨⟨hw, -⟩, hf⟩
    · exact hm.of_eq rfl rfl
    · exact .on hw hf
  | finish hr ht => exact hm.of_eq rfl rfl
  | @balk t work rest f w hr ht hd =>
    obtain ⟨text, heq⟩ | ⟨d, table, e, heq, -⟩ := h.decided hp hn hroom hr ht hd
    · cases heq
      rcases hm.decide hnested hd with ⟨a, hok, -⟩ | ⟨hheard, hf⟩
      · cases hok
      · exact hears_fail (m := { m with running := none, watch := w }) hf hheard ⟨text, rfl⟩
    · cases heq
  | @spoil t work rest d table f w hr ht hd hperform =>
    obtain ⟨text, heq⟩ | ⟨d, table, e, heq, hok, -⟩ := h.decided hp hn hroom hr ht hd
    · cases heq
    · cases heq
      cases hok.symm.trans hperform
  | @advance t work rest d table e w hr ht hd hperform =>
    rcases hm.decide hnested hd with ⟨a, -, rfl⟩ | ⟨⟨hw, -⟩, hf⟩
    · exact hm.of_eq rfl rfl
    · exact .on hw hf

/-- **A step after which a build is to stop** touches nothing, not even where the answer to stop
came in this step. -/
theorem Tracks.untouched_step (policy : Policy)
    (hab : (m.step p policy check).watch.aborted = true) :
    Untouched m (m.step p policy check) := by
  have hsteps := step_steps p policy check m
  generalize m.step p policy check = m' at hsteps hab ⊢
  cases hsteps with
  | rest hr hw => exact .refl m
  | refuse hr hj hask =>
    have hs := JobQueue.submitted_of_start? hj
    exact untouched_of_idle rfl rfl rfl hs rfl
  | skip hr hj hask =>
    have hs := JobQueue.submitted_of_start? hj
    exact untouched_of_idle rfl rfl rfl hs hr
  | start hr hj hask =>
    obtain ⟨hw, -⟩ := ask_false hask
    change Watch.aborted _ = true at hab
    rw [hw] at hab
    cases hab
  | finish hr ht =>
    change m.watch.aborted = true at hab
    exact untouched_of_idle rfl (if_pos hab) rfl rfl rfl
  | balk hr ht hd => exact untouched_of_idle rfl rfl rfl rfl rfl
  | spoil hr ht hd hperform =>
    obtain ⟨text, heq⟩ | ⟨d, table, e, heq, hok, -⟩ := h.decided hp hn hroom hr ht hd
    · cases heq
    · cases heq
      cases hok.symm.trans hperform
  | @advance t work rest d table e w hr ht hd hperform =>
    obtain ⟨text, heq⟩ | ⟨d, table, e, heq, hok, hnone⟩ := h.decided hp hn hroom hr ht hd
    · cases heq
    · cases heq
      cases hok.symm.trans hperform
      cases hnone hab
      refine ⟨rfl, rfl, rfl, rfl, fun t' ht' => ?_⟩
      cases ht'
      exact ⟨t, hr, rfl, rfl⟩

end Step

/-! ## Runs -/

section Run

variable (h : Tracks p back n root m sk lost) (hp : p.Usable back) (hn : n ≤ limit32)
  (hroom : Roomy p back root)
include h hp hn hroom

/-- **Every run hears what the check answers.** -/
theorem Tracks.hears (hnested : p.nested = false) (policy : Policy) (hm : m.Hears check) (k : Nat) :
    ((Machine.step p policy check)^[k] m).Hears check := by
  induction k with
  | zero => exact hm
  | succ k ih =>
    obtain ⟨sk', lost', hk, -⟩ := h.iterate hp hn policy check k
    rw [Function.iterate_succ_apply']
    exact hk.hears_step hp hn hroom hnested policy ih

/-- **Nothing changes any more** from the step on after which a build is to stop. -/
theorem Tracks.untouched (policy : Policy) {i j : Nat} (hij : i ≤ j)
    (hab : ((Machine.step p policy check)^[i + 1] m).watch.aborted = true) :
    Untouched ((Machine.step p policy check)^[i] m) ((Machine.step p policy check)^[j] m) := by
  induction j, hij using Nat.le_induction with
  | base => exact .refl _
  | succ j hij ih =>
    refine ih.trans ?_
    obtain ⟨sk', lost', hj, -⟩ := h.iterate hp hn policy check j
    obtain ⟨sk'', lost'', hi, -⟩ := h.iterate hp hn policy check (i + 1)
    rw [Function.iterate_succ_apply']
    refine hj.untouched_step hp hn hroom policy ?_
    -- a build that is to stop is so ever after
    obtain ⟨sk₃, lost₃, -, hext⟩ := hi.iterate hp hn policy check (j - i)
    have hlater := hext.aborted hab
    rw [← Function.iterate_add_apply] at hlater
    rw [← Function.iterate_succ_apply' (Machine.step p policy check)]
    have hsum : j - i + (i + 1) = j + 1 := by omega
    rw [hsum] at hlater
    exact hlater

end Run

end Machine

end BoxTree

import BoxTree.Cancellation
import BoxTree.Proofs.Results
/-!
# Work that heeds a check

Work that asks now and then whether to stop can end in four ways: it was told to stop, and then
nothing is known of its result; it was never told to, and then it has the result it would have
without a check; the check failed; or the work itself broke. `Ends` names the four, and `Heeds`
says that they are all there is from every watch. The laws below give the specification of a piece
of work from those of its parts.
-/

namespace BoxTree

namespace Asking

variable {σ α β : Type}

/-- Work that follows other work goes on from the state it left, unless that failed. -/
theorem runFrom_bind (work : Asking σ α) (k : α → Asking σ β) (s : σ) :
    (work >>= k).runFrom s =
      match work.runFrom s with
      | (.ok a, t) => (k a).runFrom t
      | (.error f, t) => (.error f, t) := by
  change (ExceptT.bind work k) s =
    match work s with
    | (.ok a, t) => k a t
    | (.error f, t) => (.error f, t)
  rw [ExceptT.bind]
  change (match work s with | (a, t) => ExceptT.bindCont k a t) = _
  rcases work s with ⟨a | a, t⟩ <;> rfl

@[simp] theorem runFrom_pure (a : α) (s : σ) : (pure a : Asking σ α).runFrom s = (.ok a, s) := rfl

@[simp] theorem ofFault_ok (a : α) : (ofFault (.ok a) : Asking σ α) = pure a := rfl

@[simp] theorem ofError_ok (a : α) : (ofError (.ok a) : Asking σ α) = pure a := rfl

/-- How work ends that asks a check: what holds of a result it gives undisturbed, and of a fault
of its own. -/
inductive Ends (check : Check) (P : α → Prop) (Q : Fault → Prop) (w : Watch) :
    Except Failure α × Watch → Prop where
  /-- It was told to stop, now or before. -/
  | stopped {a : α} {w' : Watch} (h : w'.aborted = true)
      (why : w.aborted = true ∨ ∃ n, check n = .stop) : Ends check P Q w (.ok a, w')
  | done {a : α} {w' : Watch} (h : w.aborted = false) (h' : w'.aborted = false) (ha : P a) :
    Ends check P Q w (.ok a, w')
  /-- The check failed. -/
  | failed {n : Nat} {text : Option String} {w' : Watch} (h : check n = .failed text) :
    Ends check P Q w (.error (.fault (.check text)), w')
  /-- The work broke. -/
  | broke {f : Fault} {w' : Watch} (h : Q f) : Ends check P Q w (.error (.fault f), w')

/-- Work that ends so from every watch. -/
def Heeds (check : Check) (work : Asking Watch α) (P : α → Prop) (Q : Fault → Prop) : Prop :=
  ∀ w, Ends check P Q w (work.runFrom w)

variable {check : Check} {P : α → Prop} {R : β → Prop} {Q : Fault → Prop} {w : Watch}

/-- **Asking** ends in one of three ways. -/
theorem ask_cases (check : Check) (w : Watch) :
    (∃ w' : Watch, (Watch.shouldStop check).runFrom w = (.ok true, w') ∧ w'.aborted = true ∧
      (w.aborted = true ∨ ∃ n, check n = .stop)) ∨
    (∃ w' : Watch, (Watch.shouldStop check).runFrom w = (.ok false, w') ∧ w'.aborted = false ∧
      w.aborted = false) ∨
    (∃ (n : Nat) (text : Option String) (w' : Watch), check n = .failed text ∧
      (Watch.shouldStop check).runFrom w = (.error (.fault (.check text)), w')) := by
  change (∃ w' : Watch, Watch.shouldStop check w = (.ok true, w') ∧ _) ∨
    (∃ w' : Watch, Watch.shouldStop check w = (.ok false, w') ∧ _) ∨
    (∃ (n : Nat) (text : Option String) (w' : Watch), check n = .failed text ∧
      Watch.shouldStop check w = (.error (.fault (.check text)), w'))
  unfold Watch.shouldStop
  by_cases hw : w.aborted = true
  · rw [if_pos hw]
    exact .inl ⟨w, rfl, hw, .inl hw⟩
  · rw [if_neg hw]
    rw [Bool.not_eq_true] at hw
    cases hc : check w.polls with
    | proceed =>
      right; left
      exact ⟨⟨w.polls + 1, false⟩, by simp only [Check.ask, hc], rfl, hw⟩
    | stop =>
      left
      exact ⟨⟨w.polls + 1, true⟩, by simp only [Check.ask, hc], rfl, .inr ⟨_, hc⟩⟩
    | failed text =>
      right; right
      exact ⟨_, text, ⟨w.polls + 1, false⟩, hc, by simp only [Check.ask, hc]⟩

/-- What is asked while the build is to stop is answered so. -/
theorem ask_of_aborted (check : Check) (h : w.aborted = true) :
    (Watch.shouldStop check).runFrom w = (.ok true, w) := by
  change Watch.shouldStop check w = _
  rw [Watch.shouldStop, if_pos h]

/-- A question fails only where the check does. -/
theorem ask_error {f : Failure} {w' : Watch}
    (h : (Watch.shouldStop check).runFrom w = (.error f, w')) :
    ∃ k text, check k = .failed text ∧ f = .fault (.check text) := by
  rcases ask_cases check w with ⟨w', heq, -⟩ | ⟨w', heq, -⟩ | ⟨k, text, w', hk, heq⟩
  · cases h.symm.trans heq
  · cases h.symm.trans heq
  · cases h.symm.trans heq
    exact ⟨k, text, hk, rfl⟩

/-- A build that is told to stop is to stop from then on. -/
theorem ask_true {w' : Watch} (h : (Watch.shouldStop check).runFrom w = (.ok true, w')) :
    w'.aborted = true ∧ (w.aborted = true ∨ ∃ k, check k = .stop) := by
  rcases ask_cases check w with ⟨w', heq, hw', why⟩ | ⟨w', heq, -⟩ | ⟨k, text, w', -, heq⟩
  · cases h.symm.trans heq
    exact ⟨hw', why⟩
  · cases h.symm.trans heq
  · cases h.symm.trans heq

theorem ask_false {w' : Watch} (h : (Watch.shouldStop check).runFrom w = (.ok false, w')) :
    w'.aborted = false ∧ w.aborted = false := by
  rcases ask_cases check w with ⟨w', heq, -⟩ | ⟨w', heq, hw', hw⟩ | ⟨k, text, w', -, heq⟩
  · cases h.symm.trans heq
  · cases h.symm.trans heq
    exact ⟨hw', hw⟩
  · cases h.symm.trans heq

/-- A check fires where it gives another answer than to proceed. -/
theorem fires_of_stop (hnot : w.aborted = false) (h : w.aborted = true ∨ ∃ k, check k = .stop) :
    ∃ k, check k ≠ .proceed := by
  rcases h with hab | ⟨k, hk⟩
  · rw [hnot] at hab
    cases hab
  · refine ⟨k, fun hproceed => ?_⟩
    cases hk.symm.trans hproceed

theorem fires_of_failed {k : Nat} {text : Option String} (h : check k = .failed text) :
    ∃ k, check k ≠ .proceed := by
  refine ⟨k, fun hproceed => ?_⟩
  cases h.symm.trans hproceed

/-! ## Laws -/

theorem Ends.imp {P' : α → Prop} {Q' : Fault → Prop} {r : Except Failure α × Watch}
    (h : Ends check P Q w r) (hP : ∀ a, P a → P' a) (hQ : ∀ f, Q f → Q' f) :
    Ends check P' Q' w r := by
  cases h with
  | stopped h why => exact .stopped h why
  | done h h' ha => exact .done h h' (hP _ ha)
  | failed h => exact .failed h
  | broke h => exact .broke (hQ _ h)

/-- **What follows work that came to a result** starts from the watch it left, and cannot take back
that the build is to stop. -/
theorem Ends.then {a : α} {w' : Watch} {r : Except Failure β × Watch}
    (h : Ends check P Q w (.ok a, w')) (h' : Ends check (fun b => P a → R b) Q w' r) :
    Ends check R Q w r := by
  cases h with
  | stopped hw' why =>
    -- once the build is to stop, what follows cannot come to a result
    cases h' with
    | stopped h'' _ => exact .stopped h'' why
    | done h'' _ _ => rw [hw'] at h''; cases h''
    | failed h => exact .failed h
    | broke h => exact .broke h
  | done hw hw' ha =>
    cases h' with
    | stopped h'' why => exact .stopped h'' (.inr (why.resolve_left (by simp [hw'])))
    | done _ h'' hb => exact .done hw h'' (hb ha)
    | failed h => exact .failed h
    | broke h => exact .broke h

/-- A failure is one whatever was wanted, and whatever is done after it. -/
theorem Ends.failure {f : Failure} {w' w'' : Watch} (h : Ends check P Q w (.error f, w')) :
    Ends check R Q w (.error f, w'') := by
  cases h with
  | failed h => exact .failed h
  | broke h => exact .broke h

theorem Heeds.imp {work : Asking Watch α} {P' : α → Prop} {Q' : Fault → Prop}
    (h : Heeds check work P Q) (hP : ∀ a, P a → P' a) (hQ : ∀ f, Q f → Q' f) :
    Heeds check work P' Q' := fun w => (h w).imp hP hQ

theorem heeds_pure {a : α} (h : P a) : Heeds check (pure a) P Q := by
  intro w
  rw [runFrom_pure]
  cases hw : w.aborted with
  | true => exact .stopped hw (.inl hw)
  | false => exact .done hw hw h

theorem heeds_fault {f : Fault} (h : Q f) : Heeds check (ofFault (.error f) : Asking Watch α) P Q :=
  fun _ => .broke h

/-- The answer to a question is the only thing a question leaves behind. -/
theorem heeds_shouldStop : Heeds check (Watch.shouldStop check) (· = false) Q := by
  intro w
  rcases ask_cases check w with ⟨w', heq, hw', why⟩ | ⟨w', heq, hw', hw⟩ | ⟨n, text, w', hc, heq⟩
  · rw [heq]
    exact .stopped hw' why
  · rw [heq]
    exact .done hw hw' rfl
  · rw [heq]
    exact .failed hc

/-- **One piece of work after another.** -/
theorem Heeds.bind {work : Asking Watch α} {k : α → Asking Watch β} (h : Heeds check work P Q)
    (hk : ∀ a, Heeds check (k a) (fun b => P a → R b) Q) : Heeds check (work >>= k) R Q := by
  intro w
  rw [runFrom_bind]
  have hfirst := h w
  generalize work.runFrom w = r at hfirst
  rcases r with ⟨f | a, w'⟩
  · exact hfirst.failure
  · exact hfirst.then (hk a w')

/-- **Work that is not begun** when the answer is to stop. -/
theorem Heeds.unless {work : Asking Watch α} (instead : α) (h : Heeds check work P Q) :
    Heeds check (do if ← Watch.shouldStop check then pure instead else work) P Q := by
  intro w
  rw [runFrom_bind]
  have hask : Ends check (· = false) Q w ((Watch.shouldStop check).runFrom w) := heeds_shouldStop w
  rcases ask_cases check w with ⟨w', heq, hw', why⟩ | ⟨w', heq, hw', hw⟩ | ⟨n, text, w', hc, heq⟩
  · rw [heq]
    exact .stopped hw' why
  · rw [heq] at hask ⊢
    exact hask.then ((h w').imp (fun _ ha _ => ha) fun _ hf => hf)
  · rw [heq]
    exact .failed hc

/-- **Two pieces of work handed out together.** -/
theorem Heeds.both {first : Asking Watch α} {second : Asking Watch β}
    (h : Heeds check first P Q) (h' : Heeds check second R Q) :
    Heeds check (both first second) (fun r => P r.1 ∧ R r.2) Q := by
  intro w
  have hfirst := h w
  change Ends check _ Q w (Asking.both first second w)
  unfold Asking.both
  generalize first.runFrom w = r at hfirst
  rcases r with ⟨(f | e) | a, w'⟩
  · exact hfirst.failure
  · cases hfirst
  · refine hfirst.then ?_
    have hsecond := h' w'
    change Ends check _ Q w' (Prod.map (Except.map fun b => (a, b)) id (second.runFrom w'))
    generalize second.runFrom w' = r at hsecond
    rcases r with ⟨f | b, w''⟩
    · exact hsecond.failure
    · cases hsecond with
      | stopped h'' why => exact .stopped h'' why
      | done hw hw' hb => exact .done hw hw' fun ha => ⟨ha, hb⟩

end Asking

end BoxTree

import BoxTree.Proofs.Build.Reports
import BoxTree.Proofs.Build.Sessions
/-!
# What a builder reports between its builds

Any number of builds may be made with one builder, each over boxes of its own, with a check, a queue
and an order of jobs of its own. Every build begins by forgetting the reports and ends by setting
them only when it is complete. So between two builds the reports are those of the build before, and
nothing if that one was stopped, refused or failed, even where an earlier one was complete
(`Builder.after_reported`).
-/

namespace BoxTree

/-- The tree of a build that was complete. -/
def BuildResult.tree? (result : BuildResult) : Option Tree :=
  match result.outcome with
  | .ok (.complete tree) => some tree
  | _ => none

theorem BuildResult.tree?_eq_some_iff {result : BuildResult} {tree : Tree} :
    result.tree? = some tree ↔ result.outcome = .ok (.complete tree) := by
  unfold tree?
  split
  · rename_i tree' heq
    rw [heq]
    simp only [Option.some.injEq, Except.ok.injEq, Outcome.complete.injEq]
  · rename_i hnot
    exact ⟨nofun, fun h => absurd h (hnot tree)⟩

/-- The tree of the last of some builds, if that one was complete. -/
def lastTree (results : List BuildResult) : Option Tree := results.getLast?.bind BuildResult.tree?

/-- The tree of the last complete one of some builds. -/
def recentTree (results : List BuildResult) : Option Tree :=
  (results.filterMap BuildResult.tree?).getLast?

/-- What a builder is asked to build, and where. -/
structure Call where
  boxes : List Box
  policy : Policy
  check : Check
  queue : JobQueue BuildJob

namespace Builder

variable {builder : Builder} {calls : List Call} {call : Call} {tree : Tree} {s : Settings}

/-- A build that is called for. -/
def answer (builder : Builder) (call : Call) : BuildResult :=
  builder.build call.boxes call.policy call.check call.queue

/-- The builds of a list of calls, each with the builder that the one before has left. -/
def results (builder : Builder) : List Call → List BuildResult
  | [] => []
  | call :: rest => builder.answer call :: results (builder.answer call).builder rest

/-- The builder after a list of calls. -/
def after (builder : Builder) (calls : List Call) : Builder :=
  ((builder.results calls).getLast?.map BuildResult.builder).getD builder

/-- What the reports say when they are those of a tree, or of none. -/
inductive Reports (builder : Builder) : Option Tree → Prop where
  | tree {tree : Tree} (describes : builder.Describes tree) : Reports builder (some tree)
  | nothing (stats : builder.stats = {}) (rootBounds : builder.rootBounds = .empty) :
    Reports builder none

/-- **Every build goes as if it were the first one.** -/
theorem results_eq_map (builder : Builder) (calls : List Call) :
    builder.results calls = calls.map builder.answer := by
  have hkeep : ∀ builder' : Builder, builder'.settings = builder.settings →
      builder'.results calls = calls.map builder.answer := by
    induction calls with
    | nil => exact fun _ _ => rfl
    | cons call rest ih =>
      intro builder' hs
      have hsame : builder'.answer call = builder.answer call := build_congr hs _ _ _ _
      have hnext : (builder.answer call).builder.settings = builder.settings :=
        settings_build builder _ _ _ _
      rw [results, hsame, ih _ hnext, List.map_cons]
  exact hkeep builder rfl

/-! ## One build -/

/-- **A build that is not complete leaves no reports.** -/
theorem forgets_conclude {p : Plan} {count : Nat} {m : Machine}
    (h : (builder.conclude p count m).tree? = none) :
    (builder.conclude p count m).builder = builder := by
  unfold conclude at h ⊢
  split
  · rfl
  · split
    · rfl
    · split
      · rfl
      · simp_all [BuildResult.tree?]

theorem forgets_answer (h : (builder.answer call).tree? = none) :
    (builder.answer call).builder = builder.cleared := by
  rcases build_cases builder call.boxes call.check with
    ⟨left, outcome, polls, hleft, heq⟩ | ⟨-, hrun⟩
  · rw [answer, heq] at h ⊢
    rcases hleft with rfl | ⟨rfl, -⟩
    · rfl
    · cases h
  · obtain ⟨p, buffers, -, hrun⟩ := hrun call.policy.platform
    rw [answer, (hrun call.policy call.queue rfl).2] at h ⊢
    exact forgets_conclude h

/-- **The reports a build leaves** are those of its tree, or none. -/
theorem reports_answer (ha : builder.Accepted) (hq : call.queue.waiting = []) :
    (builder.answer call).builder.Reports (builder.answer call).tree? := by
  cases htree : (builder.answer call).tree? with
  | none =>
    rw [forgets_answer htree]
    exact .nothing rfl rfl
  | some tree =>
    have hcomplete := BuildResult.tree?_eq_some_iff.1 htree
    obtain ⟨-, hask⟩ := le_of_complete hcomplete
    by_cases hempty : call.boxes = []
    · cases eq_empty_of_complete hempty hcomplete
      have hresult : builder.answer call = builder.cleared.buildEmpty call.queue := by
        rw [answer, hempty, build_empty hask]
      rw [hresult]
      exact .tree (buildEmpty_describes builder call.queue)
    · obtain ⟨p, t, places, hbuilt⟩ := built_of_complete ha hq hempty hcomplete
      exact .tree hbuilt.describes

/-- A tree has a leaf, which a builder without reports has not counted. -/
theorem Reports.not_describes (h : builder.Reports none) : ¬ builder.Describes tree := by
  intro hdescribes
  cases h with
  | nothing hstats =>
    have hfull := hdescribes.full
    rw [hstats] at hfull
    cases hfull

/-! ## A history of builds -/

theorem after_concat (builder : Builder) (calls : List Call) (call : Call) :
    builder.after (calls ++ [call]) = (builder.answer call).builder := by
  rw [after, results_eq_map, List.map_append, List.map_singleton, List.getLast?_concat]
  rfl

/-- **Between two builds** the reports of a builder describe the tree of the last build, and nothing
is reported if that one was not complete. So they describe the tree of the most recent complete
build just as long as no other build has come after it. -/
theorem after_reported (h : ofSettings s = .ok builder)
    (hq : ∀ call ∈ calls, call.queue.waiting = []) :
    (builder.after calls).Reports (lastTree (builder.results calls)) ∧
      ((builder.after calls).Reports (recentTree (builder.results calls)) ↔
        recentTree (builder.results calls) = lastTree (builder.results calls)) := by
  obtain ⟨-, -, rfl⟩ := map_eq_ok_iff.1 h
  have ha : Accepted { settings := s } := ⟨_, h⟩
  rcases List.eq_nil_or_concat calls with rfl | ⟨front, call, rfl⟩
  · have hnothing : Reports { settings := s } none := .nothing rfl rfl
    exact ⟨hnothing, fun _ => rfl, fun _ => hnothing⟩
  · rw [List.concat_eq_append] at hq ⊢
    have hcall : call.queue.waiting = [] := hq call (List.mem_append_right _ List.mem_cons_self)
    have hreports := reports_answer ha hcall
    rw [after_concat, results_eq_map, List.map_append, List.map_singleton, lastTree, recentTree,
      List.getLast?_concat, List.filterMap_append, Option.bind_some]
    refine ⟨hreports, fun hrecent => ?_, fun heq => heq ▸ hreports⟩
    cases htree : (answer { settings := s } call).tree? with
    | some tree => simp [htree]
    | none =>
      -- the reports are gone, so they can only be those of no tree at all
      rw [htree] at hreports
      generalize List.getLast? _ = recent at hrecent ⊢
      cases recent with
      | none => rfl
      | some tree =>
        cases hrecent with
        | tree hdescribes => exact absurd hdescribes hreports.not_describes

end Builder

/-- A call to build over some boxes, oldest jobs first. -/
def Call.fifo (boxes : List Box) (check : Check) : Call := ⟨boxes, .fifo, check, {}⟩

/-- A build over some boxes, and the same again while a flag is raised. -/
def Call.twice (boxes : List Box) : List Call :=
  [fifo boxes .never, fifo boxes (.ofFlag ⟨true⟩)]

/-- And once more with the flag lowered. -/
def Call.thrice (boxes : List Box) : List Call :=
  [fifo boxes .never, fifo boxes (.ofFlag ⟨true⟩), fifo boxes .never]

namespace Builder

/-- The row is built, stopped and built again. -/
theorem fine_between :
    ofSettings fine.settings = .ok fine ∧
      (∀ call ∈ Call.thrice row, call.queue.waiting = []) ∧
      (fine.results (Call.thrice row)).map BuildResult.isComplete = [true, false, true] ∧
      (fine.after (Call.thrice row)).Reports (lastTree (fine.results (Call.thrice row))) := by
  have hfine : ofSettings fine.settings = .ok fine := rfl
  have hidle : ∀ call ∈ Call.thrice row, call.queue.waiting = [] := by
    intro call hcall
    simp only [Call.thrice, List.mem_cons, List.not_mem_nil, or_false] at hcall
    rcases hcall with rfl | rfl | rfl <;> rfl
  obtain ⟨hreports, -⟩ := after_reported hfine hidle
  exact ⟨hfine, hidle, by decide +kernel, hreports⟩

/-- A builder with the default settings. -/
def plain : Builder := { settings := {} }

/-- **A build that is stopped loses the reports of the tree before**: over one box, which was built
first, nothing is reported after the flag has stopped the second build. -/
theorem twice_forgotten :
    ∃ tree, recentTree (plain.results (Call.twice [⟨⟨0, 0, 0⟩, ⟨1, 1, 1⟩⟩])) = some tree ∧
      tree.nodes.size = 1 ∧
      (plain.after (Call.twice [⟨⟨0, 0, 0⟩, ⟨1, 1, 1⟩⟩])).Reports none ∧
      ¬ (plain.after (Call.twice [⟨⟨0, 0, 0⟩, ⟨1, 1, 1⟩⟩])).Describes tree := by
  have hgone : (plain.after (Call.twice [⟨⟨0, 0, 0⟩, ⟨1, 1, 1⟩⟩])).Reports none := by
    apply Reports.nothing <;> decide +kernel
  exact ⟨⟨#[⟨⟨⟨0, 0, 0⟩, ⟨1, 1, 1⟩⟩, .leaf 0 1, 0⟩], #[0]⟩, by decide +kernel, rfl, hgone,
    hgone.not_describes⟩

end Builder

end BoxTree

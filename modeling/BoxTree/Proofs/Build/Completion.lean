import BoxTree.Proofs.Build.Endings
/-!
# Which builds are complete

Whatever the boxes are, a build that is left alone is complete as long as its numbers can be
counted. Only the nested threads put this in doubt: every build cuts its work into four pieces a
thread, and the settings are accepted with any number of threads (`Builder.build_completed`).
-/

namespace BoxTree

/-- The number of pieces that work on nested threads is cut into, of unbounded width. -/
def Settings.pieces (s : Settings) : Nat := max s.nestedThreads 1 * 4

namespace Builder

variable {builder : Builder} {boxes : List Box} {p : Plan} {policy : Policy} {check : Check}
  {queue : JobQueue BuildJob} {s : Settings} {platform : Platform}

/-- A build has a plan where its pieces can be counted. -/
theorem exists_plan (h : s.pieces ≤ limit64) (platform : Platform) (boxes : List Box) :
    ∃ p, plan s platform boxes = .ok p ∧ p.pieces = s.pieces := by
  have hmul : mulWithin limit64 (max s.nestedThreads 1) 4 = .ok s.pieces := if_pos h
  rw [plan, hmul]
  exact ⟨_, rfl, rfl⟩

/-- A build has no plan where they cannot. -/
theorem plan_error (h : limit64 < s.pieces) (platform : Platform) (boxes : List Box) :
    plan s platform boxes = .error (.overflow "multiply") := by
  have hmul : mulWithin limit64 (max s.nestedThreads 1) 4 = .error (.overflow "multiply") :=
    if_neg (Nat.not_le_of_lt h)
  rw [plan, hmul]
  rfl

theorem pieces_pos (s : Settings) : 0 < s.pieces :=
  Nat.mul_pos (Nat.lt_of_lt_of_le Nat.zero_lt_one (Nat.le_max_right _ _)) (by decide)

/-- Ranges can be searched and partitioned where they can be counted together with the pieces. -/
theorem able_of_pieces (hplan : plan s platform boxes = .ok p) (hpieces : p.pieces = s.pieces)
    (hcount : s.search boxes.length = .binning → boxes.length + s.pieces ≤ limit64) (back : Bool) :
    p.CanSearch boxes.length ∧ p.CanPart back boxes.length := by
  have hsearch : p.search = .binning → boxes.length + p.pieces ≤ limit64 := by
    rw [(plan_eq hplan).search, hpieces]
    exact hcount
  refine ⟨fun hbinning _ _ _ => hsearch hbinning, fun hbinning _ => ?_⟩
  rw [Nat.max_eq_left (hpieces ▸ pieces_pos s)]
  exact hsearch hbinning

/-- Up to `2 ^ 31` objects a build that is left alone is never too large. -/
theorem Ends.complete_or_panicked {outcome : Except Failure Outcome} (h : Ends p boxes outcome)
    (hp : p.Usable (needsBack p boxes.length)) (hne : boxes ≠ []) (hn : boxes.length ≤ 2 ^ 31) :
    (∃ tree, outcome = .ok (.complete tree)) ∨
      ∃ text, outcome = .error (.error (.taskPanicked text)) := by
  cases h with
  | broke _ => exact .inr ⟨_, rfl⟩
  | complete _ _ => exact .inl ⟨_, rfl⟩
  | full ht hnodes =>
    obtain ⟨t, hgrows, hle, -⟩ :=
      Roomy.of_grows hp (root_sound _) rfl (List.length_pos_iff.2 hne) hn ht
    cases hgrows.unique ht
    exact absurd hle (Nat.not_le_of_lt hnodes)

/-- **Builds end well, unless their pieces are too many.** Let a build over up to `2 ^ 31` boxes of
any coordinates, on any platform, lose no job and never be stopped. If its pieces can be counted, it
is complete or the fault of a task ends it. It is complete if it is exact, or if its objects can be
counted together with its pieces. If its pieces cannot be counted it does not even begin: the
building thread itself faults. -/
theorem build_completed (ha : builder.Accepted) (hq : queue.waiting = []) (hne : boxes ≠ [])
    (hn : boxes.length ≤ 2 ^ 31) (hkeeps : ∀ k, policy.keeps k = true)
    (hcalm : ∀ k, check k = .proceed) :
    let outcome := (builder.build boxes policy check queue).outcome
    let pieces := builder.settings.pieces
    (pieces ≤ limit64 →
      (builder.settings.search boxes.length = .binning → boxes.length + pieces ≤ limit64) →
        ∃ tree, outcome = .ok (.complete tree)) ∧
    (pieces ≤ limit64 → (∃ tree, outcome = .ok (.complete tree)) ∨
      ∃ text, outcome = .error (.error (.taskPanicked text))) ∧
    (limit64 < pieces → outcome = .error (.fault (.overflow "multiply"))) := by
  have hle : boxes.length ≤ limit32 := hn.trans (by decide)
  refine ⟨fun hpieces hcount => ?_, fun hpieces => ?_, fun hpieces => ?_⟩
  · obtain ⟨p, hplan, heq⟩ := exists_plan hpieces policy.platform boxes
    obtain ⟨hsearch, hpart⟩ := able_of_pieces hplan heq hcount (needsBack p boxes.length)
    exact complete_of_able ha hq hne hn hplan hsearch hpart hkeeps hcalm
  · obtain ⟨p, hplan, -⟩ := exists_plan hpieces policy.platform boxes
    have hends := ends_of_calm ha hq hne hle hplan hkeeps hcalm
    exact hends.complete_or_panicked (usable_of_plan ha.validate hplan) hne hn
  · have hask : check.ask 0 = .ok false := by rw [Check.ask, hcalm]
    exact outcome_of_plan_error hle hne hask (plan_error hpieces _ _)

/-- A builder that bins on two nested threads wherever it can. -/
def fineBinned : Builder :=
  { settings :=
      { fine.settings with parallelBinning := 1, parallelPartition := 1, nestedThreads := 2 } }

theorem fineBinned_completed :
    fineBinned.settings.search row.length = .binning ∧ fineBinned.settings.pieces = 8 ∧
      ∃ tree, (fineBinned.build row .fifo .never {}).outcome = .ok (.complete tree) := by
  have hcompleted := @build_completed fineBinned row .fifo .never {} ⟨_, rfl⟩ rfl nofun (by decide)
    (fun _ => rfl) fun _ => rfl
  exact ⟨rfl, rfl, hcompleted.1 (by decide) fun _ => by decide⟩

/-- A builder with so many nested threads that four pieces for each cannot be counted. Its settings
are accepted. -/
def crowded : Builder := { settings := { nestedThreads := 4611686018427387904 } }

theorem crowded_faulted : crowded.Accepted ∧ crowded.settings.wantsNested .exact 1 = false ∧
    (crowded.build [⟨⟨0, 0, 0⟩, ⟨1, 1, 1⟩⟩] .fifo .never {}).outcome =
      .error (.fault (.overflow "multiply")) :=
  ⟨⟨_, rfl⟩, by decide +kernel, by rfl⟩

end Builder

end BoxTree

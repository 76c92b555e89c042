import BoxTree.Proofs.Machine.Tracks
/-!
# How long a build runs

Every site has its fuel, a bound on the steps that can still be taken below it. A step that does
not rest uses some of it up, whatever is decided, so that a build over `n` objects is finished after
`Machine.enoughSteps n` steps. A build stops early only where its check says so, or where there is
no room for its tree.
-/

namespace BoxTree

open Chunk Sketch Buffers

/-- A bound on the steps below a site: a tree over `k` objects has at most `k - 1` forks. -/
def Site.fuel (s : Site) : Nat := 6 * (s.region.size - 1) + if s.halved then 2 else 3

theorem Site.fuel_pos (s : Site) : 0 < s.fuel := by
  unfold fuel
  split <;> omega

/-- The fuel of a number of sites. -/
def fuelOf (sites : List Site) : Nat := (sites.map Site.fuel).sum

@[simp] theorem fuelOf_nil : fuelOf [] = 0 := rfl

@[simp] theorem fuelOf_cons (s : Site) (sites : List Site) :
    fuelOf (s :: sites) = s.fuel + fuelOf sites := List.sum_cons

@[simp] theorem fuelOf_append (sites sites' : List Site) :
    fuelOf (sites ++ sites') = fuelOf sites + fuelOf sites' := by
  rw [fuelOf, List.map_append, List.sum_append]
  rfl

theorem fuelOf_perm {sites sites' : List Site} (h : sites.Perm sites') :
    fuelOf sites = fuelOf sites' := (h.map _).sum_nat

/-- A bound on the steps a build has still to take. A job takes one step to be started and one to
be ended. -/
def Machine.fuel (m : Machine) : Nat :=
  fuelOf m.sites + 2 * m.queue.waiting.length + m.running.toList.length

/-- A plot whose tree has room: it exists, its nodes can be numbered, and no counter overflows. -/
def Roomy (p : Plan) (back : Bool) (q : Plot) : Prop :=
  ∃ t, Grows p back q t ∧ t.nodes ≤ limit32 ∧ t.stats.Within

variable {p : Plan} {back : Bool} {n slot : Nat} {root q : Plot} {m m' : Machine} {sk sk' : Sketch}
  {lost lost' : List Site} {policy : Policy} {check : Check} {e e' : Effect} {mv : Move}
  {a l r : Address} {t : Growth}

/-! ## Moves -/

/-- **A move uses up fuel**, the jobs it submits included. -/
theorem Move.fuel_lt (hm : p.move back q = .ok mv) (hs : mv.Sound p back n q) :
    fuelOf (mv.sketch a l r q).sites + 2 * (mv.sketch a l r q).jobs <
      Site.fuel ⟨a, q.halved, q.region⟩ := by
  have hf := Plan.move_follows hm
  cases mv with
  | leaf reason => exact Site.fuel_pos _
  | halve stock =>
    change q.halved = false at hf
    simp [Move.sketch, Sketch.sites, Sketch.plots, Sketch.jobs, Site.fuel, hf]
  | fork apart left right =>
    obtain ⟨hl, hr⟩ := hf
    obtain ⟨hsl, hsr, hforks⟩ := hs
    have hfirst := hforks.first
    have hmid := hforks.mid
    have hlast := hforks.last
    have hlpos := hforks.left_pos
    have hrpos := hforks.right_pos
    -- two regions of at least one object each have one fork less between them than their union,
    -- which pays for the second site and for its job
    simp only [Move.sketch, Sketch.sites, Sketch.plots, Sketch.jobs, Site.fuel, hl, hr,
      List.singleton_append, List.map_cons, List.map_nil, fuelOf_cons, fuelOf_nil]
    unfold Region.size at hlpos hrpos ⊢
    cases q.halved <;> cases apart <;> simp <;> omega

/-- What a move takes from the fuel of a sketch. -/
theorem Sketch.Grafts.fuel_eq {new : Sketch} (h : Grafts a q new sk sk') :
    fuelOf sk'.sites + Site.fuel ⟨a, q.halved, q.region⟩ = fuelOf new.sites + fuelOf sk.sites := by
  obtain ⟨others, hold, hgraft⟩ := h.sites_perm
  have hbefore := fuelOf_perm hold
  have hafter := fuelOf_perm hgraft
  rw [fuelOf_cons] at hbefore
  rw [fuelOf_append] at hafter
  omega

/-- A bare node of a sketch has a tree when the whole sketch becomes one. -/
theorem Sketch.Becomes.plot (h : Becomes p back sk t) (hq : (a, q) ∈ sk.plots) :
    ∃ t', Grows p back q t' := by
  induction h with
  | bare h =>
    cases List.mem_singleton.1 hq
    exact ⟨_, h⟩
  | leaf => cases hq
  | fork _ _ ihl ihr =>
    rcases List.mem_append.1 hq with hq | hq
    · exact ihl hq
    · exact ihr hq

/-- A plot that has a tree has a move. -/
theorem Grows.exists_move (h : Grows p back q t) : ∃ mv, p.move back q = .ok mv := by
  cases h with
  | leaf h => exact ⟨_, h⟩
  | halve h _ => exact ⟨_, h⟩
  | fork h _ _ => exact ⟨_, h⟩

/-! ## Room -/

theorem Move.slots_lt (a l r : Address) (q : Plot) (mv : Move) :
    mv.slots < (mv.sketch a l r q).places.length := by
  cases mv with
  | leaf reason => exact Nat.zero_lt_one
  | halve stock => exact Nat.zero_lt_one
  | fork apart left right =>
    change (if apart then 1 else 2) < 3
    split <;> decide

/-- **Where the root has a tree**, so has the plot that is next, and its move takes no more slots
and adds no more to the counters than the tree. -/
theorem Machine.Tracks.move_of_grows {task : Task} {w : Work} {rest : List Work}
    (h : Tracks p back n root m sk lost) (hgrows : Grows p back root t)
    (hw : m.watch.aborted = false) (hr : m.running = some task) (hp : task.pending = w :: rest) :
    let q := p.plot m.buffers w.halved w.region
    ∃ mv, p.move back q = .ok mv ∧ task.chunk.size + mv.slots ≤ t.nodes ∧
      ∃ more, t.stats = task.stats + mv.tally q.region + more := by
  have hb := (h.becomes t).2 hgrows
  obtain ⟨-, hh⟩ := h.holds.resolve_left fun hh => by rw [hw] at hh; cases hh.2
  have hmem := h.mem_plots hr hp hh
  intro q
  obtain ⟨t', hq⟩ := hb.plot hmem
  obtain ⟨mv, hm⟩ := hq.exists_move
  obtain ⟨sk', hg⟩ := exists_grafts (mv.sketch ⟨task.chunk.id, w.slot⟩ ⟨0, 0⟩ ⟨0, 0⟩ q) hmem
  -- with the move made the sketch still becomes the whole tree, which has room for all of it
  have hb' := (hg.becomes_iff (Move.becomes_sketch hm) t).2 hb
  have hledger := h.ledger hw
  rw [Machine.chunks, Machine.tallies, hr, Option.toList_some, List.map_singleton,
    List.map_singleton, List.singleton_append, List.singleton_append] at hledger
  refine ⟨mv, hm, ?_, ?_⟩
  · have hsize := hledger.size_le
    have hslots := mv.slots_lt ⟨task.chunk.id, w.slot⟩ ⟨0, 0⟩ ⟨0, 0⟩ q
    have hle := hb'.length_places_le
    have hgrown := hg.length_places
    omega
  · obtain ⟨more, hsum⟩ := hb'.stats_le
    have hbefore := hledger.stats
    rw [List.sum_cons] at hbefore
    rw [hg.stats_eq, Move.stats_sketch, ← hbefore] at hsum
    refine ⟨(m.reports.map Report.stats).sum + more, ?_⟩
    rw [hsum]
    abel

/-- **Where a whole tree has room**, every move of its build has. -/
theorem Machine.Tracks.room {task : Task} {w : Work} {rest : List Work}
    (h : Tracks p back n root m sk lost) (hroom : Roomy p back root) (hw : m.watch.aborted = false)
    (hr : m.running = some task) (hp : task.pending = w :: rest) :
    let q := p.plot m.buffers w.halved w.region
    ∃ mv, p.move back q = .ok mv ∧ task.chunk.size + mv.slots ≤ limit32 ∧
      (task.stats + mv.tally q.region).Within := by
  obtain ⟨t, hgrows, hnodes, hwithin⟩ := hroom
  obtain ⟨mv, hm, hslots, more, hsum⟩ := h.move_of_grows hgrows hw hr hp
  rw [hsum] at hwithin
  exact ⟨mv, hm, hslots.trans hnodes, hwithin.left⟩

end BoxTree

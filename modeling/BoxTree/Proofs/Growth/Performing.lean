import BoxTree.Proofs.Growth.Dealing
import BoxTree.Proofs.Statistics.Sums
/-!
# Carrying out a move

What a task changes when it carries out the verdict about a plot: the items of the plots it
leaves lie in the buffers, the node is in its slot, the counters have what the node adds, and
nothing outside the range of the plot has changed. `Performs` names this and the three ways it can
fail instead: the chunk is full, a counter is, or a partition has too many pieces.
-/

namespace BoxTree

open Buffers

/-! ## Chunks -/

namespace Chunk

/-- A chunk with one more slot, still empty. -/
def grown (c : Chunk) : Chunk := { c with slots := c.slots.push none }

/-- A chunk with a slot filled. -/
def filled (c : Chunk) (slot : Nat) (node : ChunkNode) : Chunk :=
  { c with slots := c.slots.setIfInBounds slot (some node) }

variable {c : Chunk} {slot : Nat} {node : ChunkNode}

@[simp] theorem size_grown (c : Chunk) : c.grown.size = c.size + 1 := Array.size_push _

@[simp] theorem size_filled (c : Chunk) (slot : Nat) (node : ChunkNode) :
    (c.filled slot node).size = c.size := Array.size_setIfInBounds

theorem alloc_cases (c : Chunk) :
    (limit32 ≤ c.size ∧ c.alloc = .error (.tooManyObjects c.size)) ∨
      c.alloc = .ok (c.size, c.grown) := by
  unfold alloc
  split
  · rename_i h
    exact .inl ⟨h, rfl⟩
  · exact .inr rfl

theorem write_eq (h : c.slots[slot]? = some none) :
    c.write slot node = .ok (c.filled slot node) := by
  unfold write
  rw [h]
  rfl

theorem slot_lt (h : c.slots[slot]? = some none) : slot < c.size := by
  obtain ⟨hlt, -⟩ := Array.getElem?_eq_some_iff.1 h
  exact hlt

/-- An empty slot is still empty when the chunk has grown. -/
theorem slots_grown (h : slot < c.size) : c.grown.slots[slot]? = c.slots[slot]? := by
  have hne : slot ≠ c.slots.size := Nat.ne_of_lt h
  rw [grown, Array.getElem?_push, if_neg hne]

end Chunk

/-! ## Moves carried out -/

/-- The work on a plot whose root goes to a slot. -/
def Plot.work (q : Plot) (slot : Nat) : Work :=
  if q.halved then .halve slot q.region else .split slot q.region

/-- What a move adds to the counters. -/
def Move.tally (r : Region) : Move → Statistics
  | leaf reason => .leafTally reason r.depth r.size
  | halve _ => 0
  | fork .. => .interiorTally

/-- The number of slots a move takes. -/
def Move.slots : Move → Nat
  | leaf _ => 0
  | halve _ => 0
  | fork apart _ _ => if apart then 1 else 2

/-- What a task has changed when a move of a plot is carried out whose root has a slot. -/
inductive Carries (p : Plan) (e : Effect) (slot : Nat) (q : Plot) : Move → Effect → Prop where
  | leaf {reason : LeafReason} {b : Buffers}
      (hb : b.part .front 0 q.region.first q.region.last = q.stock.order) :
    Carries p e slot q (.leaf reason)
      { buffers := b
        chunk := e.chunk.filled slot
          ⟨q.region.extent.bounds, .leaf q.region.first q.region.last, q.region.depth⟩
        stats := e.stats + .leafTally reason q.region.depth q.region.size
        nextChunk := e.nextChunk }
  | halve {stock : Stock} {b : Buffers} (hb : p.stock b q.region = stock) :
    Carries p e slot q (.halve stock)
      { e with buffers := b, work := [.halve slot q.region] }
  | here {left right : Plot} {b : Buffers} (hl : p.stock b left.region = left.stock)
      (hr : p.stock b right.region = right.stock) :
    Carries p e slot q (.fork false left right)
      { buffers := b
        chunk := e.chunk.grown.grown.filled slot
          ⟨q.region.extent.bounds, .interior e.chunk.size (.here (e.chunk.size + 1)),
            q.region.depth⟩
        stats := e.stats + .interiorTally
        nextChunk := e.nextChunk
        work := [left.work e.chunk.size, right.work (e.chunk.size + 1)] }
  | apart {left right : Plot} {b : Buffers} (hl : p.stock b left.region = left.stock)
      (hr : p.stock b right.region = right.stock) (hwhole : right.halved = false) :
    Carries p e slot q (.fork true left right)
      { buffers := b
        chunk := e.chunk.grown.filled slot
          ⟨q.region.extent.bounds, .interior e.chunk.size (.chunk e.nextChunk), q.region.depth⟩
        stats := e.stats + .interiorTally
        nextChunk := e.nextChunk + 1
        work := [left.work e.chunk.size]
        job := some ⟨e.nextChunk, right.region⟩ }

/-- How carrying out the move of a plot ends. -/
inductive Performs (p : Plan) (back : Bool) (n : Nat) (e : Effect) (slot : Nat) (q : Plot) :
    Except Failure Effect → Prop where
  | carried {m : Move} {e' : Effect} (hm : p.move back q = .ok m)
      (hf : e'.buffers.Fits p.width n back)
      (hk : Keeps q.region.first q.region.last e.buffers e'.buffers)
      (hc : Carries p e slot q m e') : Performs p back n e slot q (.ok e')
  /-- The chunk has no room for the slots. -/
  | full {m : Move} {count : Nat} (hm : p.move back q = .ok m)
      (h : limit32 < e.chunk.size + m.slots) :
    Performs p back n e slot q (.error (.error (.tooManyObjects count)))
  /-- A counter has no room for the node. -/
  | uncounted {m : Move} (hm : p.move back q = .ok m)
      (h : ¬ (e.stats + m.tally q.region).Within) :
    Performs p back n e slot q (.error (.fault (.overflow "add")))
  /-- The plot has no move. -/
  | broke {f : Fault} (hm : p.move back q = .error f) :
    Performs p back n e slot q (.error (.fault f))

variable {p : Plan} {back : Bool} {n slot : Nat} {e : Effect} {q left right : Plot} {b' : Buffers}

namespace Effect

/-- Counters that are recorded are the sum, or have no room for it. -/
theorem counted_cases {r : Statistics × Except Fault Unit} {sum : Statistics}
    (h : Statistics.Records r sum) :
    counted r = .ok sum ∨ (counted r = .error (.fault (.overflow "add")) ∧ ¬ sum.Within) := by
  rcases h with rfl | ⟨⟨s, rfl⟩, hover⟩
  · exact .inl rfl
  · exact .inr ⟨rfl, hover⟩

theorem leaf_performs (hf : e.buffers.Fits p.width n back) (hr : q.region.Lies n back)
    (hslot : e.chunk.slots[slot]? = some none)
    (hstock : e.buffers.part q.region.side 0 q.region.first q.region.last = q.stock.order)
    (hwork : e.work = []) (hjob : e.job = none) {reason : LeafReason}
    (hm : p.move back q = .ok (.leaf reason)) :
    Performs p back n e slot q (e.leaf slot q.region reason) := by
  obtain ⟨hle, hlast, hside⟩ := hr
  rw [leaf, hf.settle_eq hside hle hlast]
  simp only [ofFault, ok_mapError, ok_bind, Chunk.write_eq hslot]
  rcases counted_cases (Statistics.records_leaf e.stats reason q.region.depth q.region.size) with
    heq | ⟨heq, hover⟩
  · rw [heq, ok_bind, hwork, hjob]
    refine .carried hm hf.settled (hf.keeps_settled hside hle hlast) (.leaf ?_)
    rw [hf.part_settled hside hle hlast]
    exact hstock
  · rw [heq]
    exact .uncounted hm hover

theorem branchApart_performs (hf : b'.Fits p.width n back)
    (hk : Keeps q.region.first q.region.last e.buffers b')
    (hslot : e.chunk.slots[slot]? = some none) (hm : p.move back q = .ok (.fork true left right))
    (hl : p.stock b' left.region = left.stock) (hr : p.stock b' right.region = right.stock)
    (hlwhole : left.halved = false) (hrwhole : right.halved = false) :
    Performs p back n e slot q
      (({ e with buffers := b' } : Effect).branchApart slot q.region left.region right.region) := by
  simp only [branchApart]
  rcases e.chunk.alloc_cases with ⟨hfull, halloc⟩ | halloc
  · rw [halloc]
    exact .full hm (Nat.lt_succ_of_le hfull)
  · have hgrown : e.chunk.grown.slots[slot]? = some none := by
      rw [Chunk.slots_grown (Chunk.slot_lt hslot), hslot]
    rw [halloc]
    simp only [ofError, ofFault, ok_mapError, ok_bind, Chunk.write_eq hgrown]
    rcases counted_cases (Statistics.records_interior e.stats) with heq | ⟨heq, hover⟩
    · have hwork : left.work e.chunk.size = .split e.chunk.size left.region := by
        rw [Plot.work, hlwhole]
        rfl
      rw [heq, ok_bind, ← hwork]
      exact .carried hm hf hk (.apart hl hr hrwhole)
    · rw [heq]
      exact .uncounted hm hover

theorem branchHere_performs (hf : b'.Fits p.width n back)
    (hk : Keeps q.region.first q.region.last e.buffers b')
    (hslot : e.chunk.slots[slot]? = some none) (hm : p.move back q = .ok (.fork false left right))
    (hl : p.stock b' left.region = left.stock) (hr : p.stock b' right.region = right.stock)
    (hjob : e.job = none) {work : Nat → Region → Work}
    (hlwork : ∀ slot, left.work slot = work slot left.region)
    (hrwork : ∀ slot, right.work slot = work slot right.region) :
    Performs p back n e slot q
      (({ e with buffers := b' } : Effect).branchHere slot q.region left.region right.region
        work) := by
  simp only [branchHere]
  rcases e.chunk.alloc_cases with ⟨hfull, halloc⟩ | halloc
  · rw [halloc]
    exact .full hm (Nat.lt_add_right 1 (Nat.lt_succ_of_le hfull))
  · rw [halloc]
    simp only [ofError, ok_mapError, ok_bind]
    rcases e.chunk.grown.alloc_cases with ⟨hfull, halloc⟩ | halloc
    · rw [halloc]
      rw [Chunk.size_grown] at hfull
      exact .full hm (Nat.lt_succ_of_le hfull)
    · have hlt := Chunk.slot_lt hslot
      -- the new slots lie behind that of the root, which is still empty
      have hgrown : e.chunk.grown.grown.slots[slot]? = some none := by
        rw [Chunk.slots_grown (by rw [Chunk.size_grown]; omega), Chunk.slots_grown hlt, hslot]
      rw [halloc, Chunk.size_grown]
      simp only [ofFault, ok_mapError, ok_bind, Chunk.write_eq hgrown]
      rcases counted_cases (Statistics.records_interior e.stats) with heq | ⟨heq, hover⟩
      · rw [heq, ok_bind, ← hlwork, ← hrwork, hjob]
        exact .carried hm hf hk (.here hl hr)
      · rw [heq]
        exact .uncounted hm hover

end Effect

/-! ## The plots a move leaves -/

namespace Plan

variable {r : Region} {mid : Nat}

/-- The items of a region in the first array. -/
theorem order_stock (p : Plan) (b : Buffers) (r : Region) :
    (p.stock b r).order = b.part r.side 0 r.first r.last := by
  unfold stock
  split <;> rfl

theorem stock_before (p : Plan) (b : Buffers) (extent : Extent) (side : Side)
    (hx : r.first ≤ mid) (hy : mid ≤ r.last) :
    p.stock b (r.before mid extent side) =
      (p.stock b { r with side := side }).map (List.take (mid - r.first)) := by
  cases hsearch : p.search with
  | exact => simp only [stock_exact hsearch, Stock.map, PerAxis.map, part_take hx hy, Region.before]
  | binning => simp only [stock_binning hsearch, Stock.map, part_take hx hy, Region.before]

theorem stock_after (p : Plan) (b : Buffers) (extent : Extent) (side : Side)
    (hx : r.first ≤ mid) (hy : mid ≤ r.last) :
    p.stock b (r.after mid extent side) =
      (p.stock b { r with side := side }).map (List.drop (mid - r.first)) := by
  cases hsearch : p.search with
  | exact => simp only [stock_exact hsearch, Stock.map, PerAxis.map, part_drop hx hy, Region.after]
  | binning => simp only [stock_binning hsearch, Stock.map, part_drop hx hy, Region.after]

/-- The items of the two sides of a region that was partitioned. -/
theorem Deals.stocks {b : Buffers} {stock : Stock} {k : Nat} (hd : p.Deals back n r b stock b')
    (hle : r.first ≤ r.last) (hk : k ≤ r.size) (left right : Extent) :
    p.stock b' (r.before (r.first + k) left (p.dealtSide back r)) = stock.map (List.take k) ∧
      p.stock b' (r.after (r.first + k) right (p.dealtSide back r)) = stock.map (List.drop k) := by
  have hx : r.first ≤ r.first + k := Nat.le_add_right _ _
  have hy : r.first + k ≤ r.last := by
    unfold Region.size at hk
    omega
  have hsub : r.first + k - r.first = k := Nat.add_sub_cancel_left _ _
  have hleft := p.stock_before b' left (p.dealtSide back r) hx hy
  have hright := p.stock_after b' right (p.dealtSide back r) hx hy
  rw [hd.dealt, hsub] at hleft hright
  exact ⟨hleft, hright⟩

end Plan

namespace Effect

/-- **A division carried out.** -/
theorem divide_performs (hp : p.Usable back) (hq : q.Sound p back n) (hwhole : q.halved = false)
    (hf : e.buffers.Fits p.width n back) (hslot : e.chunk.slots[slot]? = some none)
    (hstock : q.stock = p.stock e.buffers q.region) (hjob : e.job = none) {s : Split}
    (hv : p.verdict q = .ok (.divide s)) :
    Performs p back n e slot q (e.divide p slot q.region s) := by
  have hmove : p.move back q = (p.dealt back q.region s q.stock).map (p.divided back q) := by
    rw [Plan.move, hv]
    rfl
  have hcoherent := hq.coherent hwhole
  simp only [divide, ofFault]
  rw [hstock] at hcoherent
  rcases Plan.partition_eq (s := s) hp hf hq.lies hcoherent with
    ⟨f, hdealt, heq⟩ | ⟨stock, halves, b', hdealt, heq, hd⟩
  · rw [heq]
    rw [hstock, hdealt] at hmove
    exact .broke hmove
  · rw [heq]
    rw [← hstock] at hdealt
    rw [hdealt, ok_map] at hmove
    have hdeals := Plan.dealt_deals hq.suits (hq.coherent hwhole) hdealt
    have hcount := hdeals.left.count
    have hlen : stock.order.length = q.region.size := hdeals.perm.length_eq.trans hq.length
    rw [List.length_take, hlen] at hcount
    simp only [ok_mapError, ok_bind]
    simp only [Plan.divided] at hmove
    split
    · rename_i hdegenerate
      rw [if_pos hdegenerate] at hmove
      refine .carried hmove hd.fits hd.keeps (.halve ?_)
      -- the plot is kept as it was, or as it was shuffled in place
      split
      · rename_i hflips
        rw [hd.abandoned hflips, hstock]
      · rename_i hflips
        have hsame : p.dealtSide back q.region = q.region.side := by
          rw [Plan.dealtSide, if_neg hflips]
        have := hd.dealt
        rw [hsame] at this
        exact this
    · rename_i hboth
      rw [if_neg hboth] at hmove
      have hside : halves.left.count ≤ q.region.size := by omega
      obtain ⟨hleft, hright⟩ :=
        Plan.Deals.stocks hd hq.lies.le hside halves.left.extent halves.right.extent
      split
      · rename_i hlarge
        rw [hlarge] at hmove
        exact branchApart_performs hd.fits hd.keeps hslot hmove hleft hright rfl rfl
      · rename_i hsmall
        rw [Bool.not_eq_true] at hsmall
        rw [hsmall] at hmove
        exact branchHere_performs hd.fits hd.keeps hslot hmove hleft hright hjob (fun _ => rfl)
          fun _ => rfl

/-- **A cut carried out.** -/
theorem cut_performs (hq : q.Sound p back n)
    (hf : e.buffers.Fits p.width n back) (hslot : e.chunk.slots[slot]? = some none)
    (hstock : q.stock = p.stock e.buffers q.region) (hjob : e.job = none)
    (hv : p.verdict q = .ok .cut) : Performs p back n e slot q (e.cut slot q.region) := by
  have hmove : p.move back q = .ok (Plan.cutPlot q) := by
    rw [Plan.move, hv]
    rfl
  obtain ⟨hle, hlast, hside⟩ := hq.lies
  have hsize : q.region.size = q.region.last - q.region.first := rfl
  have hx : q.region.first ≤ q.region.first + q.region.size / 2 := Nat.le_add_right _ _
  have hy : q.region.first + q.region.size / 2 ≤ q.region.last := by omega
  have hsub : q.region.first + q.region.size / 2 - q.region.first = q.region.size / 2 := by omega
  have horder : q.stock.order = e.buffers.part q.region.side 0 q.region.first q.region.last := by
    rw [hstock, Plan.order_stock]
  have htake : Extent.ofItems (q.stock.order.take (q.region.size / 2)) = Extent.ofItems
      (e.buffers.part q.region.side 0 q.region.first (q.region.first + q.region.size / 2)) := by
    rw [horder, ← hsub, part_take hx hy, hsub]
  have hdrop : Extent.ofItems (q.stock.order.drop (q.region.size / 2)) = Extent.ofItems
      (e.buffers.part q.region.side 0 (q.region.first + q.region.size / 2) q.region.last) := by
    rw [horder, ← hsub, part_drop hx hy, hsub]
  simp only [Plan.cutPlot] at hmove
  rw [htake, hdrop] at hmove
  simp only [cut, Plan.extentOf, ofFault]
  rw [hf.view_eq hside hf.pos hx (hy.trans hlast), hf.view_eq hside hf.pos hy hlast]
  simp only [ok_map, ok_mapError, ok_bind]
  have hleft := p.stock_before e.buffers (Extent.ofItems
    (e.buffers.part q.region.side 0 q.region.first (q.region.first + q.region.size / 2)))
    q.region.side hx hy
  have hright := p.stock_after e.buffers (Extent.ofItems
    (e.buffers.part q.region.side 0 (q.region.first + q.region.size / 2) q.region.last))
    q.region.side hx hy
  rw [hsub, ← hstock] at hleft hright
  exact branchHere_performs hf (.refl _ _ _) hslot hmove hleft hright hjob (fun _ => rfl)
    fun _ => rfl

/-- **Carrying out the verdict about a plot** carries out its move, or fails for want of room. -/
theorem perform_performs {w : Work} {d : Decision} (hp : p.Usable back)
    (hf : e.buffers.Fits p.width n back) (hslot : e.chunk.slots[w.slot]? = some none)
    (hwork : e.work = []) (hjob : e.job = none)
    (hq : (p.plot e.buffers w.halved w.region).Sound p back n)
    (hv : p.verdict (p.plot e.buffers w.halved w.region) = .ok d) :
    Performs p back n e w.slot (p.plot e.buffers w.halved w.region) (Effect.perform p e w d) := by
  cases d with
  | stop => exact absurd hv Plan.verdict_ne_stop
  | leaf reason =>
    have hmove : p.move back (p.plot e.buffers w.halved w.region) = .ok (.leaf reason) := by
      rw [Plan.move, hv]
      rfl
    exact leaf_performs hf hq.lies hslot (p.order_stock e.buffers w.region).symm hwork hjob hmove
  | giveUp =>
    have hmove : p.move back (p.plot e.buffers w.halved w.region) =
        .ok (.halve (p.stock e.buffers w.region)) := by
      rw [Plan.move, hv]
      rfl
    exact .carried hmove hf (.refl _ _ _) (.halve rfl)
  | cut => exact cut_performs hq hf hslot rfl hjob hv
  | divide s =>
    exact divide_performs hp hq (Plan.whole_of_verdict hv nofun nofun) hf hslot rfl hjob hv

end Effect

end BoxTree

import BoxTree.Proofs.Growth.Deciding
import BoxTree.Proofs.Growth.Sound
/-!
# Partitions deal out the buffers

A partition of a region leaves in the buffers what `Plan.dealt` computes from its items, on the
side it names, and touches nothing outside its range. An abandoned partition into the other side
leaves the region as it was.
-/

namespace BoxTree

open BoxTree.Partition Buffers

/-! ## Writing the three sorted arrays -/

namespace Buffers

/-- The three sorted arrays of a range written to one side of the buffers. -/
def writtenSorted (b : Buffers) (s : Side) (first : Nat) (v : PerAxis (List Item)) : Buffers :=
  ((b.written s 0 first v.x).written s 1 first v.y).written s 2 first v.z

variable {b : Buffers} {s s' : Side} {width n first last array x y : Nat} {back : Bool}
  {v : PerAxis (List Item)}

theorem Fits.puts_eq (hf : b.Fits width n back) (hs : s = .back → back = true) (hw : 2 < width)
    (hl : last ≤ n) (hle : first ≤ last) (hv : ∀ a, (v.get a).length = last - first) :
    (do
      let b ← b.put s 0 first v.x
      let b ← b.put s 1 first v.y
      b.put s 2 first v.z) = .ok (b.writtenSorted s first v) := by
  have hx := hv .x
  have hy := hv .y
  have hz := hv .z
  simp only [PerAxis.get] at hx hy hz
  rw [hf.put_eq hs (by omega) (by omega), ok_bind,
    hf.written.put_eq hs (by omega) (by omega), ok_bind,
    hf.written.written.put_eq hs (by omega) (by omega)]
  rfl

theorem keeps_writtenSorted (hle : first ≤ last) (hv : ∀ a, (v.get a).length = last - first) :
    Keeps first last b (b.writtenSorted s first v) := by
  have hx := hv .x
  have hy := hv .y
  have hz := hv .z
  simp only [PerAxis.get] at hx hy hz
  refine .trans (.trans (keeps_written ?_) (keeps_written ?_)) (keeps_written ?_) <;> omega

/-- The other side of the buffers does not change. -/
theorem part_writtenSorted_of_ne (h : s' ≠ s) :
    (b.writtenSorted s first v).part s' array x y = b.part s' array x y := by
  rw [writtenSorted, part_written_of_ne (.inl h), part_written_of_ne (.inl h),
    part_written_of_ne (.inl h)]

/-- **The three arrays are read again.** -/
theorem Fits.part_writtenSorted_self (hf : b.Fits width n back) (hs : s = .back → back = true)
    (hw : 2 < width) (hl : last ≤ n) (hle : first ≤ last)
    (hv : ∀ a, (v.get a).length = last - first) :
    (b.writtenSorted s first v).part s 0 first last = v.x ∧
      (b.writtenSorted s first v).part s 1 first last = v.y ∧
      (b.writtenSorted s first v).part s 2 first last = v.z := by
  refine ⟨?_, ?_, ?_⟩
  · rw [writtenSorted, part_written_of_ne (.inr (by decide)), part_written_of_ne (.inr (by decide))]
    exact hf.part_written_self hs (by omega) (hv .x) hle hl
  · rw [writtenSorted, part_written_of_ne (.inr (by decide))]
    exact hf.written.part_written_self hs (by omega) (hv .y) hle hl
  · rw [writtenSorted]
    exact hf.written.written.part_written_self hs (by omega) (hv .z) hle hl

end Buffers

namespace Plan

variable {p : Plan} {b b' : Buffers} {r : Region} {s : Split} {n : Nat} {back : Bool}

/-- What a partition of a region does to the buffers. -/
structure Deals (p : Plan) (back : Bool) (n : Nat) (r : Region) (b : Buffers) (stock : Stock)
    (b' : Buffers) : Prop where
  fits : b'.Fits p.width n back
  keeps : Keeps r.first r.last b b'
  dealt : p.stock b' { r with side := p.dealtSide back r } = stock
  /-- What was written to the other side can be abandoned. -/
  abandoned : p.flips back r = true → p.stock b' r = p.stock b r

theorem Usable.back_of_flips (hp : p.Usable back) (h : p.flips back r = true) : back = true := by
  unfold flips at h
  split at h
  · rename_i hexact
    exact hp.back hexact
  · exact (Bool.and_eq_true _ _ ▸ h : _ ∧ _).2

theorem side_ne_other (side : Side) : side ≠ side.other := by cases side <;> nofun

/-- **The partition of an exact build.** -/
theorem partitionSorted_eq (hp : p.Usable back) (hf : b.Fits p.width n back) (hr : r.Lies n back)
    (hsearch : p.search = .exact) {v : PerAxis (List Item)} (hstock : p.stock b r = .sorted v)
    (hc : ∀ a, (v.get a).Perm v.x) :
    ∃ b', partitionSorted b r s = .ok (b', Halves.count s.axis s.value (v.get s.axis)) ∧
      p.Deals back n r b (.sorted (v.map (stable s.axis s.value))) b' := by
  have hwidth : p.width = 3 := by rw [width, hsearch]
  have hflips : p.flips back r = true := by simp only [flips, hsearch]
  have hother : r.side.other = .back → back = true := fun _ => hp.back_of_flips hflips
  have hdealtSide : p.dealtSide back r = r.side.other := by rw [dealtSide, if_pos hflips]
  obtain ⟨hle, hlast, hside⟩ := hr
  rw [stock_exact hsearch] at hstock
  have hv := Stock.sorted.inj hstock
  have hpart : ∀ s, (s = .back → back = true) → ∀ array < p.width,
      (b.part s array r.first r.last).length = r.last - r.first :=
    fun s hs array ha => hf.length_part hs ha hlast
  have hlen : ∀ a, (v.get a).length = r.last - r.first := by
    intro a
    rw [← hv]
    cases a <;> exact hpart _ hside _ (by omega)
  have hmap : ∀ a, ((v.map (stable s.axis s.value)).get a).length = r.last - r.first := by
    intro a
    rw [PerAxis.get_map, length_stable, hlen]
  -- the destination may hold anything
  have hstep := @inStep_eq s.axis s.value v
    ⟨(b.part r.side.other 0 r.first r.last).toArray, (b.part r.side.other 1 r.first r.last).toArray,
      (b.part r.side.other 2 r.first r.last).toArray⟩
    (fun a => (((hc a).trans (hc s.axis).symm).filter _).length_eq)
    (fun a => by rw [hlen a]; cases a <;> exact (hpart _ hother _ (by omega)).symm)
  obtain ⟨hpx, hpy, hpz⟩ :=
    hf.part_writtenSorted_self hother (by omega) hlast hle hmap
  refine ⟨b.writtenSorted r.side.other r.first (v.map (stable s.axis s.value)), ?_,
    hf.written.written.written, keeps_writtenSorted hle hmap, ?_, ?_⟩
  · have hputs := hf.puts_eq hother (by omega) hlast hle hmap
    simp only [partitionSorted, sortedItems]
    rw [items_eq hf ⟨hle, hlast, hside⟩ (by omega), items_eq hf ⟨hle, hlast, hside⟩ (by omega),
      items_eq hf ⟨hle, hlast, hside⟩ (by omega), hf.view_eq hother (by omega) hle hlast,
      hf.view_eq hother (by omega) hle hlast, hf.view_eq hother (by omega) hle hlast]
    simp only [ok_bind, pure_bind, hv, hstep]
    have hseq := congrArg (· >>= fun b' => (.ok
      (b', Halves.count s.axis s.value (v.get s.axis)) : Except Fault (Buffers × Halves))) hputs
    simp only [bind_assoc, ok_bind] at hseq
    simp only [PerAxis.map] at hseq ⊢
    exact hseq
  · rw [stock_exact hsearch, hdealtSide]
    simp only [hpx, hpy, hpz]
  -- the side that was read is not written
  · intro _
    rw [stock_exact hsearch, stock_exact hsearch, part_writtenSorted_of_ne (side_ne_other _),
      part_writtenSorted_of_ne (side_ne_other _), part_writtenSorted_of_ne (side_ne_other _)]

/-- **The partition of a binned build**, in pieces into the second buffer. -/
theorem partitionPieces_eq (hf : b.Fits p.width n back) (hr : r.Lies n back)
    (hsearch : p.search = .binning) (huse : p.usesPieces back r = true) {items : List Item}
    (hstock : p.stock b r = .single items) {size : Nat}
    (hsize : subrangeSize items.length (max p.pieces 1) = .ok size) :
    ∃ b', p.partitionPieces b r s = .ok (b',
        ((subranges size items).map (Halves.count s.axis s.value)).foldl Halves.union .empty) ∧
      p.Deals back n r b (.single (stable s.axis s.value items)) b' := by
  have hback : back = true := (Bool.and_eq_true _ _ ▸ huse : _ ∧ _).2
  have hflips : p.flips back r = true := by simp only [flips, hsearch, huse]
  have hother : r.side.other = .back → back = true := fun _ => hback
  have hdealtSide : p.dealtSide back r = r.side.other := by rw [dealtSide, if_pos hflips]
  obtain ⟨hle, hlast, hside⟩ := hr
  rw [stock_binning hsearch] at hstock
  have hitems := Stock.single.inj hstock
  have hlen : items.length = r.last - r.first := by
    rw [← hitems]
    exact hf.length_part hside hf.pos hlast
  have hstable : (stable s.axis s.value items).length = r.last - r.first := by
    rw [length_stable, hlen]
  have hdst : (b.part r.side.other 0 r.first r.last).length = r.last - r.first :=
    hf.length_part hother hf.pos hlast
  refine ⟨b.written r.side.other 0 r.first (stable s.axis s.value items), ?_, hf.written,
    keeps_written (by omega), ?_, ?_⟩
  · rw [partitionPieces, items_eq hf ⟨hle, hlast, hside⟩ hf.pos, hitems,
      hf.view_eq hother hf.pos hle hlast]
    simp only [ok_bind]
    rw [inPieces_eq hsize (by rw [List.size_toArray, hlen, hdst])]
    simp only [ok_bind]
    rw [hf.put_eq hother hf.pos (by omega)]
    rfl
  · rw [stock_binning hsearch, hdealtSide]
    exact congrArg _ (hf.part_written_self hother hf.pos hstable hle hlast)
  · intro _
    rw [stock_binning hsearch, stock_binning hsearch, part_written_of_ne (.inl (side_ne_other _))]

/-- Where there are too many items to be cut into pieces nothing is partitioned. -/
theorem partitionPieces_error (hf : b.Fits p.width n back) (hr : r.Lies n back)
    (hsearch : p.search = .binning) (huse : p.usesPieces back r = true) {items : List Item}
    (hstock : p.stock b r = .single items) {f : Fault}
    (hsize : subrangeSize items.length (max p.pieces 1) = .error f) :
    p.partitionPieces b r s = .error f := by
  have hother : r.side.other = .back → back = true :=
    fun _ => (Bool.and_eq_true _ _ ▸ huse : _ ∧ _).2
  obtain ⟨hle, hlast, hside⟩ := hr
  rw [stock_binning hsearch] at hstock
  have hitems := Stock.single.inj hstock
  have hlen : items.length = (b.part r.side.other 0 r.first r.last).toArray.size := by
    rw [← hitems, List.size_toArray, hf.length_part hside hf.pos hlast,
      hf.length_part hother hf.pos hlast]
  rw [partitionPieces, items_eq hf ⟨hle, hlast, hside⟩ hf.pos, hitems,
    hf.view_eq hother hf.pos hle hlast]
  simp only [ok_bind, inPieces, allot]
  rw [if_neg (by simpa using hlen), hsize]
  rfl

/-- **The partition of a binned build** in place. -/
theorem partitionInPlace_eq (hf : b.Fits p.width n back) (hr : r.Lies n back)
    (hsearch : p.search = .binning) (huse : p.usesPieces back r = false) {items : List Item}
    (hstock : p.stock b r = .single items) :
    ∃ b', partitionInPlace b r s = .ok (b', (inPlace s.axis s.value items).2) ∧
      p.Deals back n r b (.single (inPlace s.axis s.value items).1) b' := by
  have hflips : p.flips back r = false := by simp only [flips, hsearch, huse]
  have hdealtSide : p.dealtSide back r = r.side := by
    rw [dealtSide, if_neg (by rw [hflips]; exact Bool.false_ne_true)]
  obtain ⟨hle, hlast, hside⟩ := hr
  rw [stock_binning hsearch] at hstock
  have hitems := Stock.single.inj hstock
  obtain ⟨l, right, hp, -, -, heq, -⟩ := inPlace_eq s.axis s.value items
  have hlen : (inPlace s.axis s.value items).1.length = r.last - r.first := by
    rw [heq, hp.length_eq, ← hitems]
    exact hf.length_part hside hf.pos hlast
  refine ⟨b.written r.side 0 r.first (inPlace s.axis s.value items).1, ?_, hf.written,
    keeps_written (by omega), ?_, ?_⟩
  · rw [partitionInPlace, items_eq hf ⟨hle, hlast, hside⟩ hf.pos, hitems]
    simp only [ok_bind]
    rw [hf.put_eq hside hf.pos (by omega)]
    rfl
  · rw [stock_binning hsearch, hdealtSide]
    exact congrArg _ (hf.part_written_self hside hf.pos hlen hle hlast)
  · intro h
    rw [hflips] at h
    cases h

/-- **A partition leaves in the buffers what is computed from the items**, and fails exactly when
that cannot be computed. -/
theorem partition_eq (hp : p.Usable back) (hf : b.Fits p.width n back) (hr : r.Lies n back)
    (hc : (p.stock b r).Coherent) :
    (∃ f, p.dealt back r s (p.stock b r) = .error f ∧ p.partition b r s = .error f) ∨
    ∃ stock halves b', p.dealt back r s (p.stock b r) = .ok (stock, halves) ∧
      p.partition b r s = .ok (b', halves, p.dealtSide back r) ∧ p.Deals back n r b stock b' := by
  cases hsearch : p.search with
  | exact =>
    have hstock := stock_exact hsearch b r
    generalize (⟨b.part r.side 0 r.first r.last, b.part r.side 1 r.first r.last,
      b.part r.side 2 r.first r.last⟩ : PerAxis (List Item)) = v at hstock
    rw [hstock] at hc ⊢
    obtain ⟨b', heq, hd⟩ := partitionSorted_eq (s := s) hp hf hr hsearch hstock hc
    refine .inr ⟨_, _, b', rfl, ?_, hd⟩
    simp only [partition, hsearch, heq, ok_bind, dealtSide, flips, if_true]
    rfl
  | binning =>
    have hstock := stock_binning hsearch b r
    generalize b.part r.side 0 r.first r.last = items at hstock
    rw [hstock] at hc ⊢
    have huses : (p.usesNested r.size p.settings.parallelPartition && b.hasBack) =
        p.usesPieces back r := by rw [hf.hasBack_eq, usesPieces]
    by_cases huse : p.usesPieces back r = true
    -- into the second buffer, where the pieces can fail to be counted
    · cases hsize : subrangeSize items.length (max p.pieces 1) with
      | error f =>
        left
        refine ⟨f, ?_, ?_⟩
        · simp only [dealt, huse, if_true, hsize, error_map]
        · have herr := p.partitionPieces_error (s := s) hf hr hsearch huse hstock hsize
          simp only [partition, hsearch, huses, huse, if_true, herr, error_bind]
      | ok size =>
        obtain ⟨b', heq, hd⟩ := p.partitionPieces_eq (s := s) hf hr hsearch huse hstock hsize
        refine .inr ⟨_, ((subranges size items).map (Halves.count s.axis s.value)).foldl
          Halves.union .empty, b', ?_, ?_, hd⟩
        · simp only [dealt, huse, if_true, hsize, ok_map]
        · simp only [partition, hsearch, huses, huse, if_true, heq, ok_bind, dealtSide, flips]
          rfl
    · rw [Bool.not_eq_true] at huse
      obtain ⟨b', heq, hd⟩ := partitionInPlace_eq (s := s) hf hr hsearch huse hstock
      refine .inr ⟨_, (inPlace s.axis s.value items).2, b', ?_, ?_, hd⟩
      · simp only [dealt, huse, Bool.false_eq_true, if_false]
      · simp only [partition, hsearch, huses, huse, Bool.false_eq_true, if_false, heq, ok_bind,
          dealtSide, flips]
        rfl

end Plan

end BoxTree

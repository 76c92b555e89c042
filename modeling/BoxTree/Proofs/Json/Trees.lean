import BoxTree.Json.Schema
import BoxTree.Proofs.Json.Numerals
/-!
# Trees in JSON text

A tree is written as a legal value, so that its text reads back as that value
(`Tree.parse?_toJson`). The value reads back as the tree where its counts have 32 bits and the
coordinates of its boxes are legible (`Tree.ofJson?_toJson`). Infinity is not: it is written as
null, which is no scalar.
-/

namespace BoxTree

open Json

/-- A scalar whose number reads back as itself. -/
def Scalar.Legible (a : Scalar) : Prop := (ofScalar a).scalar? = some a

instance (a : Scalar) : Decidable a.Legible := inferInstanceAs (Decidable (_ = _))

/-- Rounded twice on its way back, this scalar becomes its neighbour. -/
example : ¬ Scalar.Legible (Float32.ofBits 0x15AE43FD) := by decide +kernel

/-- What is legible is finite. -/
theorem Scalar.Legible.isFinite {a : Scalar} (h : a.Legible) : a.isFinite = true := by
  refine Decidable.byContradiction fun hinf => ?_
  rw [Legible, ofScalar, if_neg hinf] at h
  cases h

namespace Json

/-! ## Legal values -/

theorem legalItems_iff {js : List Json} : LegalItems js ↔ ∀ j ∈ js, j.Legal := by
  induction js with
  | nil => exact iff_of_true trivial nofun
  | cons j js ih => rw [LegalItems, List.forall_mem_cons, ih]

theorem legal_arr {js : List Json} (h : ∀ j ∈ js, j.Legal) : (arr js).Legal := by
  rw [Legal]
  exact legalItems_iff.2 h

theorem legal_obj {fs : List (String × Json)} (h : ∀ f ∈ fs, f.2.Legal) : (obj fs).Legal := by
  rw [Legal]
  induction fs with
  | nil => trivial
  | cons f fs ih =>
    rw [List.forall_mem_cons] at h
    exact ⟨h.1, ih h.2⟩

end Json

theorem Point.legal_toJson (p : Point) : p.toJson.Legal :=
  legal_arr (by simp [legal_ofScalar])

theorem Box.legal_toJson (b : Box) : b.toJson.Legal :=
  legal_obj (by simp [Point.legal_toJson])

theorem NodeKind.legal_toJson (k : NodeKind) : k.toJson.Legal := by
  cases k <;> exact legal_obj (by simp [legal_obj, legal_ofNat])

theorem Node.legal_toJson (n : Node) : n.toJson.Legal :=
  legal_obj (by simp [Box.legal_toJson, NodeKind.legal_toJson, legal_ofNat])

theorem Tree.legal_toJson (t : Tree) : t.toJson.Legal :=
  legal_obj (by simp [legal_arr, Node.legal_toJson, legal_ofNat])

/-- **The text of every tree reads back as a value.** -/
theorem Tree.parse?_toJson (t : Tree) : parse? t.toJson.compact = some t.toJson :=
  parse?_compact t.legal_toJson

/-! ## Reading trees -/

theorem Point.ofJson?_toJson {p : Point} (h : ∀ a, (p.get a).Legible) :
    ofJson? p.toJson = some p := by
  have hx : (ofScalar p.x).scalar? = some p.x := h .x
  have hy : (ofScalar p.y).scalar? = some p.y := h .y
  have hz : (ofScalar p.z).scalar? = some p.z := h .z
  simp only [toJson, ofJson?, hx, hy, hz]
  rfl

/-- A box all of whose coordinates are legible. -/
def Box.Legible (b : Box) : Prop := ∀ a, (b.lo.get a).Legible ∧ (b.hi.get a).Legible

theorem Box.ofJson?_toJson {b : Box} (h : b.Legible) : ofJson? b.toJson = some b := by
  have hlo := Point.ofJson?_toJson fun a => (h a).1
  have hhi := Point.ofJson?_toJson fun a => (h a).2
  simp [toJson, ofJson?, record?, field?, required, hlo, hhi]

/-- The numbers in the kind of a node have 32 bits. -/
def NodeKind.Within : NodeKind → Prop
  | interior l r => l ≤ limit32 ∧ r ≤ limit32
  | leaf a b => a ≤ limit32 ∧ b ≤ limit32

theorem NodeKind.ofJson?_toJson {k : NodeKind} (h : k.Within) : ofJson? k.toJson = some k := by
  cases k with
  | interior l r =>
    have hl := count?_ofNat h.1
    have hr := count?_ofNat h.2
    simp [toJson, ofJson?, variant?, pair?, field?, required, count32?, hl, hr]
  | leaf a b =>
    have ha := count?_ofNat h.1
    have hb := count?_ofNat h.2
    simp [toJson, ofJson?, variant?, pair?, field?, required, count32?, ha, hb]

/-- A node that can be read. -/
structure Node.Readable (n : Node) : Prop where
  bounds : n.bounds.Legible
  kind : n.kind.Within
  depth : n.depth ≤ limit32

theorem Node.ofJson?_toJson {n : Node} (h : n.Readable) : ofJson? n.toJson = some n := by
  have hbounds := Box.ofJson?_toJson h.bounds
  have hkind := NodeKind.ofJson?_toJson h.kind
  have hdepth := count?_ofNat h.depth
  simp [toJson, ofJson?, record?, field?, required, count32?, hbounds, hkind, hdepth]

/-- Items that read back one by one read back as a list. -/
theorem Json.list?_map {α : Type} {read : Json → Option α} {write : α → Json} {xs : List α}
    (h : ∀ x ∈ xs, read (write x) = some x) : list? read (.arr (xs.map write)) = some xs := by
  change (xs.map write).mapM read = some xs
  induction xs with
  | nil => rfl
  | cons x xs ih =>
    rw [List.forall_mem_cons] at h
    rw [List.map_cons, List.mapM_cons, h.1, ih h.2]
    rfl

/-- **A tree reads back as itself.** -/
theorem Tree.ofJson?_toJson {t : Tree} (hnodes : ∀ n ∈ t.nodes.toList, n.Readable)
    (horder : ∀ o ∈ t.order.toList, o ≤ limit32) : ofJson? t.toJson = some t := by
  have hread := list?_map fun n hn => Node.ofJson?_toJson (hnodes n hn)
  have hcount : list? count32? (.arr (t.order.toList.map ofNat)) = some t.order.toList :=
    list?_map fun o ho => count?_ofNat (horder o ho)
  simp [toJson, ofJson?, record?, field?, required, hread, hcount]

end BoxTree

/-!
# Results of steps that may fail

How the results of steps compose: a sequence of steps has a value exactly when each of its steps
has one. Everything the library computes with failures is taken apart with these laws.
-/

namespace BoxTree

variable {α β ε ε' : Type}

@[simp] theorem ok_bind (a : α) (f : α → Except ε β) : (Except.ok a >>= f) = f a := rfl

@[simp] theorem error_bind (e : ε) (f : α → Except ε β) : (Except.error e >>= f) = .error e := rfl

@[simp] theorem ok_map (f : α → β) (a : α) : (Except.ok a : Except ε α).map f = .ok (f a) := rfl

@[simp] theorem error_map (f : α → β) (e : ε) :
    (Except.error e : Except ε α).map f = .error e := rfl

@[simp] theorem ok_mapError (f : ε → ε') (a : α) : (Except.ok a).mapError f = .ok a := rfl

@[simp] theorem error_mapError (f : ε → ε') (e : ε) :
    (Except.error e : Except ε α).mapError f = .error (f e) := rfl

/-- **A sequence has a value when both its steps have.** -/
theorem bind_eq_ok_iff {x : Except ε α} {f : α → Except ε β} {b : β} :
    (x >>= f) = .ok b ↔ ∃ a, x = .ok a ∧ f a = .ok b := by
  cases x with
  | error e => simp
  | ok a => simp

theorem map_eq_ok_iff {x : Except ε α} {f : α → β} {b : β} :
    x.map f = .ok b ↔ ∃ a, x = .ok a ∧ f a = b := by
  cases x with
  | error e => simp
  | ok a => simp

theorem mapError_eq_ok_iff {x : Except ε α} {f : ε → ε'} {a : α} :
    x.mapError f = .ok a ↔ x = .ok a := by
  cases x with
  | error e => simp
  | ok a => simp

/-- What is made of the value of a sequence is made of that of its second step. -/
theorem map_bind_eq {γ : Type} (x : Except ε α) (f : α → Except ε β) (g : β → γ) :
    (x >>= f).map g = x >>= fun a => (f a).map g := by
  cases x <;> rfl

/-- A sequence fails where one of its steps does. -/
theorem bind_eq_error {x : Except ε α} {f : α → Except ε β} {e : ε} (h : (x >>= f) = .error e) :
    x = .error e ∨ ∃ a, x = .ok a ∧ f a = .error e := by
  cases x with
  | error e' =>
    cases h
    exact .inl rfl
  | ok a => exact .inr ⟨a, rfl, h⟩

theorem map_eq_error {x : Except ε α} {f : α → β} {e : ε} (h : x.map f = .error e) :
    x = .error e := by
  cases x with
  | error e' =>
    cases h
    rfl
  | ok a => cases h

/-- **What every step keeps holds in the end**, and there is an end if every step has a value. -/
theorem foldlM_keeps {f : β → α → Except ε β} {l : List α} {P : β → Prop} {b : β} (hb : P b)
    (h : ∀ a ∈ l, ∀ b, P b → ∃ b', f b a = .ok b' ∧ P b') : ∃ b', l.foldlM f b = .ok b' ∧ P b' := by
  induction l generalizing b with
  | nil => exact ⟨b, rfl, hb⟩
  | cons a rest ih =>
    rw [List.forall_mem_cons] at h
    obtain ⟨b', heq, hb'⟩ := h.1 b hb
    rw [List.foldlM_cons, heq, ok_bind]
    exact ih hb' h.2

/-- Steps that all have a value have their values together. -/
theorem mapM_eq_ok {f : α → Except ε β} {g : α → β} {l : List α} (h : ∀ a ∈ l, f a = .ok (g a)) :
    l.mapM f = .ok (l.map g) := by
  induction l with
  | nil => rfl
  | cons a rest ih =>
    rw [List.forall_mem_cons] at h
    rw [List.mapM_cons, h.1, ok_bind, ih h.2]
    rfl

/-- The first step without a value says why they have none together. -/
theorem mapM_eq_error {f : α → Except ε β} {l : List α} {i : Nat} {a : α} {e : ε}
    (ha : l[i]? = some a) (herr : f a = .error e)
    (hbefore : ∀ j < i, ∀ b, l[j]? = some b → ∃ c, f b = .ok c) : l.mapM f = .error e := by
  induction l generalizing i with
  | nil => cases ha
  | cons b rest ih =>
    rw [List.mapM_cons]
    cases i with
    | zero =>
      cases ha
      rw [herr]
      rfl
    | succ i =>
      obtain ⟨c, hc⟩ := hbefore 0 (Nat.succ_pos i) b rfl
      have hrest : rest.mapM f = .error e :=
        ih ha fun j hj b hb => hbefore (j + 1) (Nat.succ_lt_succ hj) b hb
      rw [hc, ok_bind, hrest]
      rfl

/-- A step without a value leaves them all without one. -/
theorem exists_of_mapM_eq_ok {f : α → Except ε β} {l : List α} {l' : List β}
    (h : l.mapM f = .ok l') : ∀ a ∈ l, ∃ b, f a = .ok b := by
  induction l generalizing l' with
  | nil => exact fun _ ha => by cases ha
  | cons a rest ih =>
    rw [List.mapM_cons] at h
    obtain ⟨b, hb, h⟩ := bind_eq_ok_iff.1 h
    obtain ⟨bs, hbs, -⟩ := bind_eq_ok_iff.1 h
    exact List.forall_mem_cons.2 ⟨⟨b, hb⟩, ih hbs⟩

/-- What steps fail with together one of them fails with. -/
theorem exists_of_mapM_eq_error {f : α → Except ε β} {l : List α} {e : ε}
    (h : l.mapM f = .error e) : ∃ a ∈ l, f a = .error e := by
  induction l with
  | nil => cases h
  | cons a rest ih =>
    rw [List.mapM_cons] at h
    rcases bind_eq_error h with ha | ⟨b, -, h⟩
    · exact ⟨a, List.mem_cons_self, ha⟩
    · rcases bind_eq_error h with hrest | ⟨bs, -, h⟩
      · obtain ⟨a', ha', herr⟩ := ih hrest
        exact ⟨a', List.mem_cons_of_mem _ ha', herr⟩
      · cases h

end BoxTree

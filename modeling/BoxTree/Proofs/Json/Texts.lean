import BoxTree.Json.Reader
import BoxTree.Json.Writer
/-!
# Reading what was written

The text of a value reads back as the value, as long as the numbers in it are numbers
(`Json.parse?_compact`). Texts in quotes do so whatever their characters are, since everything that
could end them is escaped.
-/

namespace BoxTree

namespace Json

/-! ## Texts in quotes -/

variable {c : Char} {cs rest : List Char} {fuel : Nat}

theorem hexValue?_hexDigit : ∀ n < 16, hexValue? (hexDigit n) = some n := by decide

/-- A control character is read from its two digits. -/
theorem escape?_control (h : c.toNat < 32) (cs : List Char) :
    escape? ('u' :: '0' :: '0' :: hexDigit (c.toNat / 16) :: hexDigit (c.toNat % 16) :: cs) =
      some (c, cs) := by
  have hhigh := hexValue?_hexDigit (c.toNat / 16) (by omega)
  have hlow := hexValue?_hexDigit (c.toNat % 16) (by omega)
  have hzero : hexValue? '0' = some 0 := rfl
  have hunit : ((0 * 16 + 0) * 16 + c.toNat / 16) * 16 + c.toNat % 16 = c.toNat := by omega
  have hread : hexUnit? ('0' :: '0' :: hexDigit (c.toNat / 16) :: hexDigit (c.toNat % 16) :: cs) =
      some (c.toNat, cs) := by
    simp only [hexUnit?, hzero, hhigh, hlow, Option.bind_eq_bind, Option.bind_some, hunit]
  have hlarge : ¬ 0xD800 ≤ c.toNat := by omega
  have hsmall : ¬ 0xDC00 ≤ c.toNat := by omega
  simp only [escape?, unicodeEscape?, hread, Option.bind_eq_bind, Option.bind_some, hlarge, hsmall,
    decide_false, Bool.false_and, Bool.false_eq_true, if_false, Char.ofNat_toNat]

/-- What stands behind a backslash is read as one character. -/
theorem readString?_backslash (h : escape? cs = some (c, rest)) :
    readString? (fuel + 1) ('\\' :: cs) =
      (readString? fuel rest).map fun s => (c :: s.1, s.2) := by
  rw [readString?, h]
  simp only [Option.bind_eq_bind, Option.bind_some]
  cases readString? fuel rest <;> rfl

/-- **A character in quotes reads back**, be it escaped or not. -/
theorem readString?_escape (fuel : Nat) (c : Char) (cs : List Char) :
    readString? (fuel + 1) (escape c ++ cs) =
      (readString? fuel cs).map fun s => (c :: s.1, s.2) := by
  unfold escape
  -- five characters have a letter or themselves behind the backslash, and two are named by number
  iterate 5
    split
    · subst c
      exact readString?_backslash rfl
  split
  · rename_i h
    obtain rfl : c = Char.ofNat 8 := h ▸ (Char.ofNat_toNat c).symm
    exact readString?_backslash rfl
  split
  · rename_i h
    obtain rfl : c = Char.ofNat 12 := h ▸ (Char.ofNat_toNat c).symm
    exact readString?_backslash rfl
  split
  · exact readString?_backslash (escape?_control ‹_› cs)
  · have hquote : c ≠ '"' := ‹_›
    have hslash : c ≠ '\\' := ‹_›
    have hprint : ¬ c.toNat < 32 := ‹_›
    rw [List.singleton_append, readString?]
    · simp only [if_neg hprint]
      cases readString? fuel cs <;> rfl
    · exact hquote
    · exact hslash

/-- **A text in quotes reads back.** -/
theorem readString?_quote (s : List Char) (rest : List Char) {fuel : Nat} (h : s.length < fuel) :
    readString? fuel (s.flatMap escape ++ '"' :: rest) = some (s, rest) := by
  induction s generalizing fuel with
  | nil =>
    obtain ⟨fuel, rfl⟩ := Nat.exists_eq_succ_of_ne_zero (Nat.ne_zero_of_lt h)
    rfl
  | cons c s ih =>
    obtain ⟨fuel, rfl⟩ := Nat.exists_eq_succ_of_ne_zero (Nat.ne_zero_of_lt h)
    rw [List.flatMap_cons, List.append_assoc, readString?_escape,
      ih (Nat.lt_of_succ_lt_succ h)]
    rfl

theorem length_le_flatMap_escape (s : List Char) : s.length ≤ (s.flatMap escape).length := by
  have hpos : ∀ c, 1 ≤ (escape c).length := by
    intro c
    unfold escape
    repeat' split
    all_goals exact Nat.le_add_left 1 _
  induction s with
  | nil => exact Nat.le_refl 0
  | cons c s ih =>
    have hc := hpos c
    rw [List.flatMap_cons, List.length_append, List.length_cons]
    omega

/-! ## Values -/

/-- The text of a number. -/
structure IsNumeral (text : List Char) : Prop where
  isNumber : isNumber text = true
  inNumber : ∀ c ∈ text, inNumber c = true

mutual

/-- The numbers in a value are numbers. -/
def Legal : Json → Prop
  | .num text => IsNumeral text.toList
  | .arr js => LegalItems js
  | .obj fs => LegalFields fs
  | _ => True

/-- The numbers in the items of an array are numbers. -/
def LegalItems : List Json → Prop
  | [] => True
  | j :: js => Legal j ∧ LegalItems js

/-- The numbers in the fields of an object are numbers. -/
def LegalFields : List (String × Json) → Prop
  | [] => True
  | (_, j) :: fs => Legal j ∧ LegalFields fs

end

/-- Whether a value can begin with a character. -/
def opens (c : Char) : Bool := c.isDigit || c ∈ ['n', 't', 'f', '"', '[', '\x7b', '-']

/-- A text that does not go on with a number. -/
def Stops (rest : List Char) : Prop := ∀ c ∈ rest.head?, inNumber c = false

theorem ne_of_opens {d : Char} (hc : opens c = true) (hd : opens d = false) : c ≠ d := by
  rintro rfl
  exact Bool.false_ne_true (hd.symm.trans hc)

/-- No value begins with a blank. -/
theorem dropBlanks_of_opens (h : opens c = true) (cs : List Char) :
    dropBlanks (c :: cs) = c :: cs := by
  rw [dropBlanks, List.dropWhile_cons_of_neg]
  simp only [ne_of_opens h (d := ' ') rfl, ne_of_opens h (d := '\t') rfl,
    ne_of_opens h (d := '\n') rfl, ne_of_opens h (d := '\r') rfl, decide_false, Bool.or_false,
    Bool.false_eq_true, not_false_eq_true]

/-- A number begins with a minus or a digit. -/
theorem IsNumeral.exists_head {text : List Char} (h : IsNumeral text) :
    ∃ c cs, text = c :: cs ∧ (c = '-' ∨ c.isDigit = true) := by
  obtain ⟨h, -⟩ := h
  cases text with
  | nil => cases h
  | cons c cs =>
    refine ⟨c, cs, rfl, ?_⟩
    by_cases hminus : c = '-'
    · exact .inl hminus
    · refine .inr (Decidable.byContradiction fun hdigit => ?_)
      have hunsigned : ¬ (c :: cs).head? = some '-' := fun heq => hminus (Option.some.inj heq)
      simp only [Json.isNumber, if_neg hunsigned, DecimalText.spanDigits,
        List.takeWhile_cons_of_neg hdigit, List.isEmpty_nil, Bool.not_true, Bool.false_and,
        Bool.false_eq_true] at h

/-- **Every value begins with a character that opens it.** -/
theorem Legal.exists_head {j : Json} (h : j.Legal) :
    ∃ c cs, j.chars = c :: cs ∧ opens c = true := by
  cases j with
  | null => exact ⟨_, _, rfl, rfl⟩
  | bool b => cases b <;> exact ⟨_, _, rfl, rfl⟩
  | num text =>
    rw [Legal] at h
    obtain ⟨c, cs, heq, hc⟩ := h.exists_head
    refine ⟨c, cs, heq, ?_⟩
    rcases hc with rfl | hc
    · rfl
    · rw [opens, hc, Bool.true_or]
  | str s => exact ⟨_, _, rfl, rfl⟩
  | arr js => cases js <;> exact ⟨_, _, rfl, rfl⟩
  | obj fs => cases fs <;> exact ⟨_, _, rfl, rfl⟩

/-- A text of one kind of characters ends where another character follows. -/
theorem takeWhile_append {p : Char → Bool} {text : List Char} (h : ∀ c ∈ text, p c = true)
    (hrest : ∀ c ∈ rest.head?, p c = false) :
    (text ++ rest).takeWhile p = text ∧ (text ++ rest).dropWhile p = rest := by
  rw [List.takeWhile_append_of_pos h, List.dropWhile_append_of_pos h]
  cases rest with
  | nil => exact ⟨List.append_nil text, rfl⟩
  | cons d rest =>
    have hd : ¬ p d = true := Bool.eq_false_iff.1 (hrest d rfl)
    rw [List.takeWhile_cons_of_neg hd, List.dropWhile_cons_of_neg hd, List.append_nil]
    exact ⟨rfl, rfl⟩

theorem readValue?_num {text : String} (h : IsNumeral text.toList) (hrest : Stops rest) :
    readValue? (fuel + 1) (text.toList ++ rest) = some (.num text, rest) := by
  obtain ⟨htake, hdrop⟩ := takeWhile_append h.inNumber hrest
  obtain ⟨c, cs, htext, hc⟩ := h.exists_head
  have hopens : opens c = true := by
    rcases hc with rfl | hc
    · rfl
    · rw [opens, hc, Bool.true_or]
  have hblanks : dropBlanks (text.toList ++ rest) = text.toList ++ rest := by
    rw [htext, List.cons_append, dropBlanks_of_opens hopens]
  have hhead : ∀ d cs', text.toList ++ rest = d :: cs' → d = '-' ∨ d.isDigit = true := by
    intro d cs' heq
    rw [htext, List.cons_append] at heq
    cases heq
    exact hc
  have hother : ∀ d, d ≠ '-' → d.isDigit = false → ∀ cs', text.toList ++ rest ≠ d :: cs' := by
    intro d hminus hdigit cs' heq
    rcases hhead d cs' heq with h | h
    · exact hminus h
    · exact Bool.false_ne_true (hdigit.symm.trans h)
  rw [readValue?, hblanks]
  split
  iterate 6
    · exact absurd ‹_› (hother _ (by decide) rfl _)
  · rw [htake, hdrop, if_pos h.isNumber, String.ofList_toList]

/-- A text in quotes is read up to its closing quote. -/
theorem quote_append (s : String) (rest : List Char) : ∃ cs, quote s ++ rest = '"' :: cs ∧
    readString? (cs.length + 1) cs = some (s.toList, rest) := by
  refine ⟨s.toList.flatMap escape ++ '"' :: rest, ?_, readString?_quote _ _ ?_⟩
  · rw [quote, List.cons_append, List.cons_append, List.append_assoc, List.singleton_append]
  · have hle := length_le_flatMap_escape s.toList
    rw [List.length_append]
    omega

theorem readValue?_str (s : String) (rest : List Char) :
    readValue? (fuel + 1) (quote s ++ rest) = some (.str s, rest) := by
  obtain ⟨cs, hquote, hread⟩ := quote_append s rest
  rw [hquote, readValue?, dropBlanks_of_opens rfl]
  simp only [hread, Option.bind_eq_bind, Option.bind_some, String.ofList_toList]

theorem readValue?_arr {js : List Json} (hhead : ∃ c cs', cs = c :: cs' ∧ opens c = true)
    (h : readItems? fuel cs = some (js, rest)) :
    readValue? (fuel + 1) ('[' :: cs) = some (.arr js, rest) := by
  obtain ⟨c, cs', rfl, hc⟩ := hhead
  rw [readValue?, dropBlanks_of_opens rfl]
  simp only [dropBlanks_of_opens hc]
  split
  · rename_i heq
    cases heq
    cases hc
  · rw [h]
    rfl

theorem readItems?_last {j : Json} (h : readValue? fuel cs = some (j, ']' :: rest)) :
    readItems? (fuel + 1) cs = some ([j], rest) := by
  rw [readItems?, h]
  rfl

theorem readItems?_cons {j : Json} {js : List Json} {cs' : List Char}
    (h : readValue? fuel cs = some (j, ',' :: cs')) (hs : readItems? fuel cs' = some (js, rest)) :
    readItems? (fuel + 1) cs = some (j :: js, rest) := by
  rw [readItems?, h]
  change (readItems? fuel cs').bind _ = _
  rw [hs]
  rfl

theorem readValue?_obj {fs : List (String × Json)} (hhead : ∃ cs', cs = '"' :: cs')
    (h : readFields? fuel cs = some (fs, rest)) :
    readValue? (fuel + 1) ('\x7b' :: cs) = some (.obj fs, rest) := by
  obtain ⟨cs', rfl⟩ := hhead
  rw [readValue?, dropBlanks_of_opens rfl]
  simp only [dropBlanks_of_opens (c := '"') rfl]
  change (readFields? fuel ('"' :: cs')).bind _ = _
  rw [h]
  rfl

theorem readFields?_last {name : String} {j : Json}
    (h : readValue? fuel cs = some (j, '\x7d' :: rest)) :
    readFields? (fuel + 1) (quote name ++ ':' :: cs) = some ([(name, j)], rest) := by
  obtain ⟨cs', hquote, hread⟩ := quote_append name (':' :: cs)
  rw [hquote, readFields?, dropBlanks_of_opens rfl]
  simp only [hread, Option.bind_eq_bind, Option.bind_some, String.ofList_toList]
  change (readValue? fuel cs).bind _ = _
  rw [h]
  rfl

theorem readFields?_cons {name : String} {j : Json} {fs : List (String × Json)} {cs' : List Char}
    (h : readValue? fuel cs = some (j, ',' :: cs'))
    (hs : readFields? fuel cs' = some (fs, rest)) :
    readFields? (fuel + 1) (quote name ++ ':' :: cs) = some ((name, j) :: fs, rest) := by
  obtain ⟨cs'', hquote, hread⟩ := quote_append name (':' :: cs)
  rw [hquote, readFields?, dropBlanks_of_opens rfl]
  simp only [hread, Option.bind_eq_bind, Option.bind_some, String.ofList_toList]
  change (readValue? fuel cs).bind _ = _
  rw [h]
  change (readFields? fuel cs').bind _ = _
  rw [hs]
  rfl

theorem stops_itemChars (js : List Json) (rest : List Char) : Stops (itemChars js ++ rest) := by
  intro c hc
  cases js <;> cases hc <;> rfl

theorem stops_fieldChars (fs : List (String × Json)) (rest : List Char) :
    Stops (fieldChars fs ++ rest) := by
  intro c hc
  cases fs <;> cases hc <;> rfl

/-- The text of a value reads back, whatever follows it. -/
def ReadsBack (j : Json) : Prop := ∀ (fuel : Nat) (rest : List Char), j.chars.length ≤ fuel →
  Stops rest → readValue? fuel (j.chars ++ rest) = some (j, rest)

mutual

/-- **Legal values read back.** -/
theorem readsBack_of_legal : ∀ j : Json, j.Legal → j.ReadsBack
  | j, h, 0, rest, hfuel, _ => by
    obtain ⟨c, cs, hchars, -⟩ := h.exists_head
    rw [hchars] at hfuel
    cases hfuel
  | .null, _, fuel + 1, rest, _, _ => rfl
  | .bool true, _, fuel + 1, rest, _, _ => rfl
  | .bool false, _, fuel + 1, rest, _, _ => rfl
  | .num text, h, fuel + 1, rest, _, hrest => by
    rw [Legal] at h
    exact readValue?_num h hrest
  | .str s, _, fuel + 1, rest, _, _ => readValue?_str s rest
  | .arr [], _, fuel + 1, rest, _, _ => rfl
  | .arr (j :: js), h, fuel + 1, rest, hfuel, hrest => by
    rw [Legal, LegalItems] at h
    obtain ⟨c, cs, hchars, hc⟩ := h.1.exists_head
    have hitems := readItems?_chars js h.2 j (readsBack_of_legal j h.1) fuel rest (by
      rw [chars, List.cons_append, List.length_cons] at hfuel
      omega)
    rw [chars, List.cons_append, List.cons_append, List.append_assoc]
    exact readValue?_arr ⟨c, cs ++ (itemChars js ++ rest), by rw [hchars, List.cons_append], hc⟩
      hitems
  | .obj [], _, fuel + 1, rest, _, _ => rfl
  | .obj ((name, j) :: fs), h, fuel + 1, rest, hfuel, hrest => by
    rw [Legal, LegalFields] at h
    have hfields := readFields?_chars fs h.2 name j (readsBack_of_legal j h.1) fuel rest (by
      rw [chars, List.cons_append, List.cons_append, List.length_cons] at hfuel
      omega)
    simp only [chars, List.cons_append, List.append_assoc]
    exact readValue?_obj ⟨_, rfl⟩ hfields

/-- The items of an array read back after the first one. -/
theorem readItems?_chars : ∀ js : List Json, LegalItems js → ∀ (j : Json), j.ReadsBack →
    ∀ (fuel : Nat) (rest : List Char), (j.chars ++ itemChars js).length ≤ fuel →
    readItems? fuel (j.chars ++ (itemChars js ++ rest)) = some (j :: js, rest)
  | [], _, j, hj, fuel, rest, hfuel => by
    rw [itemChars, List.length_append, List.length_singleton] at hfuel
    obtain ⟨fuel, rfl⟩ := Nat.exists_eq_succ_of_ne_zero (n := fuel) (by omega)
    exact readItems?_last (hj fuel _ (by omega) (stops_itemChars [] rest))
  | j' :: js, h, j, hj, fuel, rest, hfuel => by
    have hlength : (itemChars (j' :: js)).length = (j'.chars ++ itemChars js).length + 1 := rfl
    rw [List.length_append, hlength] at hfuel
    obtain ⟨fuel, rfl⟩ := Nat.exists_eq_succ_of_ne_zero (n := fuel) (by omega)
    rw [LegalItems] at h
    have hitems := readItems?_chars js h.2 j' (readsBack_of_legal j' h.1) fuel rest (by omega)
    rw [← List.append_assoc] at hitems
    exact readItems?_cons (hj fuel _ (by omega) (stops_itemChars (j' :: js) rest)) hitems

/-- The fields of an object read back after the first one. -/
theorem readFields?_chars : ∀ fs : List (String × Json), LegalFields fs → ∀ (name : String)
    (j : Json), j.ReadsBack → ∀ (fuel : Nat) (rest : List Char),
    (quote name ++ ':' :: j.chars ++ fieldChars fs).length ≤ fuel →
    readFields? fuel (quote name ++ ':' :: (j.chars ++ (fieldChars fs ++ rest))) =
      some ((name, j) :: fs, rest)
  | [], _, name, j, hj, fuel, rest, hfuel => by
    rw [fieldChars, List.length_append, List.length_append, List.length_cons,
      List.length_singleton] at hfuel
    obtain ⟨fuel, rfl⟩ := Nat.exists_eq_succ_of_ne_zero (n := fuel) (by omega)
    exact readFields?_last (hj fuel _ (by omega) (stops_fieldChars [] rest))
  | (name', j') :: fs, h, name, j, hj, fuel, rest, hfuel => by
    have hlength : (fieldChars ((name', j') :: fs)).length =
        (quote name' ++ ':' :: j'.chars ++ fieldChars fs).length + 1 := rfl
    rw [List.length_append, List.length_append, List.length_cons, hlength] at hfuel
    obtain ⟨fuel, rfl⟩ := Nat.exists_eq_succ_of_ne_zero (n := fuel) (by omega)
    rw [LegalFields] at h
    have hfields := readFields?_chars fs h.2 name' j' (readsBack_of_legal j' h.1) fuel rest
      (by omega)
    have htext : quote name' ++ ':' :: (j'.chars ++ (fieldChars fs ++ rest)) =
        quote name' ++ ':' :: j'.chars ++ fieldChars fs ++ rest := by
      simp only [List.append_assoc, List.cons_append]
    rw [htext] at hfields
    exact readFields?_cons (hj fuel _ (by omega) (stops_fieldChars ((name', j') :: fs) rest))
      hfields

end

/-- **Every legal value reads back** from its text. -/
theorem parse?_compact {j : Json} (h : j.Legal) : parse? j.compact = some j := by
  have hread := readsBack_of_legal j h (j.chars.length + 1) [] (Nat.le_succ _) nofun
  rw [List.append_nil] at hread
  rw [parse?, compact, String.toList_ofList]
  simp only [hread, Option.bind_eq_bind, Option.bind_some]
  rfl

end Json

end BoxTree

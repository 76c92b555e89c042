import BoxTree.Proofs.Json.Texts
import BoxTree.Proofs.Scalar.Ranks
import Mathlib.Data.List.Basic
/-!
# Numbers in JSON text

Counts and finite scalars are written as JSON numbers: a minus where there is one, digits without a
leading zero, a fraction and an exponent with a digit each (`IsNumeral.of_parts`). A count reads
back as itself, whatever its size (`Json.count?_ofNat`). A scalar is written with the shortest
decimal that identifies it, in whatever layout its size asks for (`Layout.isNumeral_scalar`).
-/

namespace BoxTree

/-! ## Digits -/

/-- One digit or more. -/
structure IsDigits (ds : List Char) : Prop where
  ne_nil : ds ≠ []
  isDigit : ∀ c ∈ ds, c.isDigit = true

/-- Digits without a leading zero, unless zero is all there is. -/
structure IsWhole (ds : List Char) : Prop extends IsDigits ds where
  head : ds.length = 1 ∨ ds.head? ≠ some '0'

theorem isDigits_digitsOf (n : Nat) : IsDigits (Layout.digitsOf n) :=
  ⟨Nat.toDigits_ne_nil, fun _ => Nat.isDigit_of_mem_toDigits (by decide) (by decide)⟩

/-- The digits of a number other than zero do not begin with a zero. -/
theorem head?_digitsOf {n : Nat} (h : n ≠ 0) : (Layout.digitsOf n).head? ≠ some '0' := by
  induction n using Nat.strongRecOn with
  | ind n ih =>
    rcases Nat.lt_or_ge n 10 with hlt | hge
    · rw [Layout.digitsOf, Nat.toDigits_of_lt_base hlt, List.head?_cons, Ne, Option.some_inj,
        Nat.digitChar_eq_zero]
      exact h
    · have hdiv := ih (n / 10) (by omega) (by omega)
      rw [Layout.digitsOf, Nat.toDigits_of_base_le (by decide) hge,
        List.head?_append_of_ne_nil _ Nat.toDigits_ne_nil]
      exact hdiv

theorem isWhole_digitsOf (n : Nat) : IsWhole (Layout.digitsOf n) := by
  refine ⟨isDigits_digitsOf n, ?_⟩
  by_cases h : n = 0
  · subst h
    exact .inl rfl
  · exact .inr (head?_digitsOf h)

/-! ## The parts of a number -/

/-- The text of a sign. -/
def signText (negative : Bool) : List Char := if negative then ['-'] else []

/-- The text of a fraction. -/
def fractionText : Option (List Char) → List Char
  | none => []
  | some ds => '.' :: ds

/-- The text of an exponent with its sign. -/
def exponentText : Option (Bool × List Char) → List Char
  | none => []
  | some (negative, ds) => 'e' :: (if negative then '-' else '+') :: ds

/-- The value of an exponent. -/
def exponentValue : Option (Bool × List Char) → Int
  | none => 0
  | some (negative, ds) =>
    if negative then -(DecimalText.digitsValue 0 ds : Int) else DecimalText.digitsValue 0 ds

/-- The parts of a number: whether it is negative, its digits before the point and behind it, and
its exponent. -/
structure NumberParts where
  negative : Bool
  whole : List Char
  fraction : Option (List Char)
  exponent : Option (Bool × List Char)

namespace NumberParts

/-- The text of a number behind its sign. -/
def unsigned (p : NumberParts) : List Char :=
  p.whole ++ (fractionText p.fraction ++ exponentText p.exponent)

/-- The text of a number. -/
def text (p : NumberParts) : List Char := signText p.negative ++ p.unsigned

/-- The decimal that the text stands for. -/
def decimal (p : NumberParts) : DecimalText where
  negative := p.negative
  value :=
    ⟨DecimalText.digitsValue 0 (p.whole ++ p.fraction.getD []),
      exponentValue p.exponent - (p.fraction.getD []).length⟩
  whole := p.fraction.isNone && p.exponent.isNone

/-- Parts that make a number. -/
structure Proper (p : NumberParts) : Prop where
  whole : IsWhole p.whole
  fraction : ∀ ds ∈ p.fraction, IsDigits ds
  exponent : ∀ e ∈ p.exponent, IsDigits e.2

end NumberParts

namespace DecimalText

open Json (takeWhile_append)

variable {ds rest : List Char} {f : Option (List Char)} {e : Option (Bool × List Char)}
  {p : NumberParts}

/-- Digits are read up to what is none. -/
theorem spanDigits_eq (h : ∀ c ∈ ds, c.isDigit = true)
    (hrest : ∀ c ∈ rest.head?, c.isDigit = false) : spanDigits (ds ++ rest) = (ds, rest) := by
  obtain ⟨htake, hdrop⟩ := takeWhile_append h hrest
  rw [spanDigits, htake, hdrop]

/-- No digit follows where an exponent is due, nor where a fraction is. -/
theorem isDigit_head?_exponentText (e : Option (Bool × List Char)) :
    ∀ c ∈ (exponentText e).head?, c.isDigit = false := by
  intro c hc
  cases e <;> cases hc
  rfl

theorem isDigit_head?_fractionText (f : Option (List Char)) (e : Option (Bool × List Char)) :
    ∀ c ∈ (fractionText f ++ exponentText e).head?, c.isDigit = false := by
  intro c hc
  cases f with
  | none => exact isDigit_head?_exponentText e c hc
  | some ds =>
    cases hc
    rfl

theorem spanFraction_eq (e : Option (Bool × List Char)) (h : ∀ ds ∈ f, IsDigits ds) :
    spanFraction (fractionText f ++ exponentText e) = (f, exponentText e) := by
  cases f with
  | none => cases e <;> rfl
  | some ds =>
    rw [fractionText, List.cons_append, spanFraction,
      spanDigits_eq (h ds rfl).isDigit (isDigit_head?_exponentText e)]

theorem spanExponent?_eq (h : ∀ x ∈ e, IsDigits x.2) :
    spanExponent? (exponentText e) = some (e.map fun _ => exponentValue e, []) := by
  cases e with
  | none => rfl
  | some x =>
    obtain ⟨negative, ds⟩ := x
    obtain ⟨hne, hdigits⟩ := h _ rfl
    have hspan : spanDigits ds = (ds, []) := by
      have hall : spanDigits (ds ++ []) = (ds, []) := spanDigits_eq hdigits nofun
      rwa [List.append_nil] at hall
    have hempty : ds.isEmpty = false := List.isEmpty_eq_false_iff.2 hne
    cases negative <;> simp [spanExponent?, exponentText, spanSign, hspan, hempty, exponentValue]

theorem spanSign_eq (h : p.Proper) :
    spanSign p.text = (if p.negative then some '-' else none, p.unsigned) := by
  obtain ⟨c, cs, hwhole⟩ := List.exists_cons_of_ne_nil h.whole.ne_nil
  have hc := h.whole.isDigit c (hwhole ▸ List.mem_cons_self)
  cases hnegative : p.negative with
  | true =>
    rw [NumberParts.text, hnegative]
    rfl
  | false =>
    rw [NumberParts.text, hnegative, NumberParts.unsigned, hwhole]
    -- a digit is no sign
    change spanSign (c :: _) = _
    unfold spanSign
    split
    · rename_i heq
      cases heq
      cases hc
    · rename_i heq
      cases heq
      cases hc
    · rfl

theorem spanDigits_unsigned (h : p.Proper) : spanDigits p.unsigned =
    (p.whole, fractionText p.fraction ++ exponentText p.exponent) :=
  spanDigits_eq h.whole.isDigit (isDigit_head?_fractionText _ _)

/-- **The parts of a number are read one after the other.** -/
theorem read?_text (h : p.Proper) : read? p.text = some p.decimal := by
  have hempty : p.whole.isEmpty = false := List.isEmpty_eq_false_iff.2 h.whole.ne_nil
  have hsign : decide ((if p.negative then some '-' else none) = some '-') = p.negative := by
    cases p.negative <;> rfl
  simp only [read?, spanSign_eq h, spanDigits_unsigned h, spanFraction_eq _ h.fraction,
    spanExponent?_eq h.exponent, hempty, hsign, Bool.false_and, NumberParts.decimal]
  cases p.exponent <;> rfl

end DecimalText

namespace NumberParts

variable {p : NumberParts}

theorem inNumber_of_isDigit {c : Char} (h : c.isDigit = true) : Json.inNumber c = true := by
  simp only [Json.inNumber, h, Bool.true_or]

theorem Proper.inNumber (h : p.Proper) : ∀ c ∈ p.text, Json.inNumber c = true := by
  obtain ⟨negative, whole, fraction, exponent⟩ := p
  obtain ⟨hwhole, hfraction, hexponent⟩ := h
  simp only [text, unsigned, List.forall_mem_append]
  refine ⟨?_, fun c hc => inNumber_of_isDigit (hwhole.isDigit c hc), ?_, ?_⟩
  · cases negative with
    | false => exact fun c hc => nomatch hc
    | true => exact List.forall_mem_singleton.2 rfl
  · cases fraction with
    | none => exact fun c hc => nomatch hc
    | some ds =>
      exact List.forall_mem_cons.2
        ⟨rfl, fun c hc => inNumber_of_isDigit ((hfraction ds rfl).isDigit c hc)⟩
  · cases exponent with
    | none => exact fun c hc => nomatch hc
    | some e =>
      refine List.forall_mem_cons.2 ⟨rfl, List.forall_mem_cons.2 ⟨?_, fun c hc => ?_⟩⟩
      · cases e.1 <;> rfl
      · exact inNumber_of_isDigit ((hexponent e rfl).isDigit c hc)

/-- What is left of a number without its sign. -/
theorem Proper.unsigned_eq (h : p.Proper) :
    (if p.text.head? = some '-' then p.text.tail else p.text) = p.unsigned := by
  obtain ⟨c, cs, hwhole⟩ := List.exists_cons_of_ne_nil h.whole.ne_nil
  have hc := h.whole.isDigit c (hwhole ▸ List.mem_cons_self)
  cases hnegative : p.negative with
  | true =>
    rw [text, hnegative]
    rfl
  | false =>
    have htext : p.text = c :: (cs ++ (fractionText p.fraction ++ exponentText p.exponent)) := by
      rw [text, hnegative, unsigned, hwhole]
      rfl
    have hminus : ¬ p.text.head? = some '-' := by
      rw [htext]
      rintro heq
      cases heq
      cases hc
    rw [if_neg hminus, text, hnegative]
    rfl

/-- **Proper parts make a number.** -/
theorem Proper.isNumeral (h : p.Proper) : Json.IsNumeral p.text := by
  refine ⟨?_, h.inNumber⟩
  have hempty : p.whole.isEmpty = false := List.isEmpty_eq_false_iff.2 h.whole.ne_nil
  have hhead : (decide (p.whole.length = 1) || decide (p.whole.head? ≠ some '0')) = true := by
    rw [Bool.or_eq_true, decide_eq_true_iff, decide_eq_true_iff]
    exact h.whole.head
  have hfraction : decide (p.fraction ≠ some []) = true :=
    decide_eq_true fun heq => (h.fraction [] heq).ne_nil rfl
  simp only [Json.isNumber, h.unsigned_eq, DecimalText.spanDigits_unsigned h,
    DecimalText.spanFraction_eq _ h.fraction, DecimalText.read?_text h, hempty, hhead, hfraction]
  rfl

end NumberParts

/-! ## Counts -/

/-- A count is all digits. -/
def NumberParts.ofCount (n : Nat) : NumberParts := ⟨false, Layout.digitsOf n, none, none⟩

theorem NumberParts.proper_ofCount (n : Nat) : (ofCount n).Proper :=
  ⟨isWhole_digitsOf n, nofun, nofun⟩

theorem NumberParts.text_ofCount (n : Nat) : (ofCount n).text = (toString n).toList := by
  rw [text, unsigned, Nat.toString_eq_repr, Nat.toList_repr]
  exact List.append_nil _

namespace Json

theorem legal_ofNat (n : Nat) : (ofNat n).Legal := by
  rw [ofNat, Legal, ← NumberParts.text_ofCount]
  exact (NumberParts.proper_ofCount n).isNumeral

/-- **A count reads back as itself**, as long as it is within the limit. -/
theorem count?_ofNat {limit n : Nat} (h : n ≤ limit) : (ofNat n).count? limit = some n := by
  have hdecimal : (ofNat n).decimal? = some (NumberParts.ofCount n).decimal := by
    rw [ofNat, decimal?, ← NumberParts.text_ofCount]
    exact DecimalText.read?_text (NumberParts.proper_ofCount n)
  have hvalue : (NumberParts.ofCount n).decimal.value.digits = n := by
    change Nat.ofDigitChars 10 (Nat.toDigits 10 n ++ []) 0 = n
    rw [List.append_nil]
    exact Nat.ofDigitChars_ten_toDigits
  simp only [count?, hdecimal, Option.bind_eq_bind, Option.bind_some, hvalue]
  exact if_pos (by simp [NumberParts.decimal, NumberParts.ofCount, h])

end Json

/-! ## Scalars -/

open Float.Model (Format UnpackedFloat)

/-- The exponent of a finite scalar is not the greatest one. -/
theorem Magnitude.exists_finite {a : Scalar} (h : a.isFinite = true) :
    ∃ x, ofSingle a = .finite x := by
  have hexp : a.toBits.toNat / 0x800000 % 256 ≠ 255 := by
    intro hfull
    change (UnpackedFloat.unpack Format.binary32 a.toBits.toBitVec).isFinite = true at h
    have hfield := Scalar.toNat_unpackExponent a.toBits.toBitVec
    rcases Scalar.unpack_cases a.toBits.toBitVec rfl rfl rfl with
      ⟨hu, -, -⟩ | ⟨hu, -, -⟩ | ⟨-, he, -⟩ | ⟨_, _, _, -, hcases⟩
    · rw [hu] at h
      cases h
    · rw [hu] at h
      cases h
    · rw [he] at hfield
      exact absurd (hfield.trans hfull) (by decide)
    · have hlt : a.toBits.toBitVec.toNat / 2 ^ 23 % 2 ^ 8 = 255 := hfull
      omega
  unfold ofSingle ofFields
  dsimp only
  rw [if_neg hexp]
  split <;> exact ⟨_, rfl⟩

namespace Decimal

/-- Zeros behind the digits are not all there is. -/
theorem digits_strip (fuel : Nat) {d : Decimal} (h : d.digits ≠ 0) : (strip fuel d).digits ≠ 0 := by
  induction fuel generalizing d with
  | zero => exact h
  | succ fuel ih =>
    rw [strip]
    split
    · exact ih (d := ⟨d.digits / 10, d.exponent + 1⟩) (by simp only; omega)
    · exact h

/-- The shortest decimal has digits without an exponent or does not vanish. -/
theorem exponent_shortest {tie : Tie} {x : Binary} (h : (shortest tie x).digits = 0) :
    (shortest tie x).exponent = 0 := by
  unfold shortest at h ⊢
  dsimp only at h ⊢
  split at h
  · rename_i hzero
    rw [if_pos hzero]
  · rename_i hzero
    exact absurd h (digits_strip 800 hzero)

end Decimal

namespace Layout

variable {l : Layout} {d : Decimal} {ds : List Char} {k : Nat}

theorem isDigit_zeros (n : Nat) : ∀ c ∈ zeros n, c.isDigit = true := by
  intro c hc
  rw [(List.mem_replicate.1 hc).2]
  rfl

/-- A whole number, with zeros behind it unless it is zero. -/
theorem isWhole_append_zeros (h : IsWhole ds) (hk : k = 0 ∨ ds.head? ≠ some '0') :
    IsWhole (ds ++ zeros k) := by
  refine ⟨⟨List.append_ne_nil_of_left_ne_nil h.ne_nil _,
    List.forall_mem_append.2 ⟨h.isDigit, isDigit_zeros k⟩⟩, ?_⟩
  rcases hk with rfl | hhead
  · rw [zeros, List.replicate_zero, List.append_nil]
    exact h.head
  · rw [List.head?_append_of_ne_nil _ h.ne_nil]
    exact .inr hhead

/-- Digits with a point between them. -/
theorem isWhole_take (h : IsDigits ds) (hhead : ds.head? ≠ some '0') (hpos : 0 < k)
    (hk : k < ds.length) : IsWhole (ds.take k) ∧ IsDigits (ds.drop k) := by
  refine ⟨⟨⟨?_, fun c hc => h.isDigit c (List.mem_of_mem_take hc)⟩, .inr ?_⟩,
    ?_, fun c hc => h.isDigit c (List.mem_of_mem_drop hc)⟩
  · rw [Ne, List.take_eq_nil_iff]
    exact fun hnil => hnil.elim (Nat.ne_of_gt hpos) h.ne_nil
  · rw [List.head?_take, if_neg (Nat.ne_of_gt hpos)]
    exact hhead
  · rw [Ne, List.drop_eq_nil_iff]
    exact Nat.not_le_of_lt hk

/-- Digits behind a point and zeros. -/
theorem isDigits_zeros_append (h : IsDigits ds) (k : Nat) : IsDigits (zeros k ++ ds) :=
  ⟨List.append_ne_nil_of_right_ne_nil _ h.ne_nil,
    List.forall_mem_append.2 ⟨isDigit_zeros k, h.isDigit⟩⟩

/-- A signed exponent is the text of one. -/
theorem exponentText_signed (e : Int) :
    exponentText (some (decide (e < 0), digitsOf e.natAbs)) = 'e' :: signed e := by
  by_cases he : e < 0 <;> simp [exponentText, signed, he]

/-- One digit before the point, and an exponent. -/
theorem proper_signed (negative : Bool) {c : Char} {rest : List Char} (h : IsDigits (c :: rest))
    (e : Int) :
    (⟨negative, [c], if rest = [] then none else some rest,
      some (decide (e < 0), digitsOf e.natAbs)⟩ : NumberParts).Proper := by
  refine ⟨⟨⟨List.cons_ne_nil _ _, List.forall_mem_singleton.2 (h.isDigit c List.mem_cons_self)⟩,
    .inl rfl⟩, ?_, ?_⟩
  · intro ds hds
    by_cases hrest : rest = []
    · rw [if_pos hrest] at hds
      cases hds
    · rw [if_neg hrest] at hds
      cases hds
      exact ⟨hrest, fun x hx => h.isDigit x (List.mem_cons_of_mem _ hx)⟩
  · rintro x heq
    cases heq
    exact isDigits_digitsOf _

/-- **A decimal is written as a number**, whatever its size and the layout. -/
theorem exists_parts (l : Layout) (h : d.digits = 0 → d.exponent = 0) (negative : Bool) :
    ∃ p : NumberParts, p.Proper ∧ p.negative = negative ∧ p.unsigned = l.magnitude d := by
  have hwhole := isWhole_digitsOf d.digits
  have hleads : d.exponent ≠ 0 → (digitsOf d.digits).head? ≠ some '0' :=
    fun hexp => head?_digitsOf fun hzero => hexp (h hzero)
  have hzero : IsWhole ['0'] := isWhole_digitsOf 0
  unfold magnitude
  dsimp only
  generalize digitsOf d.digits = ds at *
  split
  · split
    · -- zeros up to the point
      refine ⟨⟨negative, ds ++ zeros d.exponent.toNat,
        if l.wholeFraction then some ['0'] else none, none⟩, ⟨?_, ?_, nofun⟩, rfl, ?_⟩
      · refine isWhole_append_zeros hwhole ?_
        by_cases hne : d.exponent = 0
        · rw [hne]
          exact .inl rfl
        · exact .inr (hleads hne)
      · cases l.wholeFraction with
        | false => exact nofun
        | true =>
          rintro _ heq
          cases heq
          exact hzero.toIsDigits
      · cases l.wholeFraction <;> rfl
    · split
      · -- a point between the digits
        obtain ⟨htake, hdrop⟩ := isWhole_take hwhole.toIsDigits (hleads (by omega))
          (k := ((ds.length : Int) + d.exponent - 1).toNat + 1) (Nat.succ_pos _) (by omega)
        exact ⟨⟨negative, _, some _, none⟩,
          ⟨htake, fun x hx => Option.some.inj hx ▸ hdrop, nofun⟩, rfl,
          congrArg _ (List.append_nil _)⟩
      · -- a point before all digits
        exact ⟨⟨negative, ['0'], some _, none⟩,
          ⟨hzero, fun x hx => Option.some.inj hx ▸ isDigits_zeros_append hwhole.toIsDigits _,
            nofun⟩, rfl, congrArg ('0' :: '.' :: ·) (List.append_nil _)⟩
  · -- a point behind the first digit, if there are more, and an exponent
    obtain ⟨c, rest, rfl⟩ := List.exists_cons_of_ne_nil hwhole.ne_nil
    refine ⟨_, proper_signed negative hwhole.toIsDigits (((c :: rest).length : Int) +
      d.exponent - 1), rfl, ?_⟩
    rw [NumberParts.unsigned, exponentText_signed]
    cases rest <;> rfl

/-- **A finite scalar is written as a number.** -/
theorem isNumeral_scalar {a : Scalar} (h : a.isFinite = true) :
    Json.IsNumeral (json.scalar a).toList := by
  obtain ⟨x, hx⟩ := Magnitude.exists_finite h
  have hparts : ∃ p : NumberParts, p.Proper ∧ p.negative = a.isNegative ∧
      p.unsigned = json.finite x := by
    unfold finite
    split
    · exact ⟨⟨a.isNegative, ['0'], some ['0'], none⟩,
        ⟨isWhole_digitsOf 0, fun ds hds => Option.some.inj hds ▸ isDigits_digitsOf 0, nofun⟩,
        rfl, rfl⟩
    · exact exists_parts json Decimal.exponent_shortest a.isNegative
  obtain ⟨p, hp, hnegative, htext⟩ := hparts
  have hscalar : (json.scalar a).toList = p.text := by
    rw [scalar, hx, render, withSign, String.toList_ofList, NumberParts.text, htext, hnegative]
    cases a.isNegative <;> rfl
  rw [hscalar]
  exact hp.isNumeral

end Layout

/-- A scalar is written as a number, or as null. -/
theorem Json.legal_ofScalar (a : Scalar) : (ofScalar a).Legal := by
  unfold ofScalar
  split
  · rename_i h
    rw [Legal]
    exact Layout.isNumeral_scalar h
  · trivial

end BoxTree

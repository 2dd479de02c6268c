/-
  A number is read back from its plain form (`read?_plain`). Every number literal is read
  as the decimal that it denotes; and the plain form is a literal, of digits with a point at most,
  that denotes a decimal which rounds to the number.
-/
import LoginForest.Proofs.Json.Lexing
import LoginForest.Proofs.Text

namespace LoginForest.Number

open LoginForest.Json (Numeral isWhole_cons)

/-! ## Literals -/

/-- The number that a literal denotes. -/
def ofNumeral (n : Numeral) : Float :=
  ofDecimal n.negative n.decimal.coefficient n.decimal.exponent

section Literals

variable {n : Numeral}

theorem unsigned?_unsignedChars (h : n.WellFormed) :
    unsigned? n.negative n.unsignedChars = some (ofNumeral n) := by
  obtain ⟨negative, whole, places, exponent⟩ := n
  obtain ⟨hwhole, hdigits, hplaces⟩ := h
  obtain ⟨c, rest, hcons⟩ := isWhole_cons hwhole
  have hend := Json.noDigit_exponentPart exponent
  have hrest := Json.noDigit_placesChars places hend
  have hempty : whole.isEmpty = false := by
    dsimp only at hcons
    rw [hcons]
    rfl
  have hexponent : exponent? (Numeral.exponentPart exponent) = some (exponent.getD 0) := by
    cases exponent with
    | none => rfl
    | some e => exact (Json.spellsExponent_exponentPart (some e)).exponent?
  unfold unsigned? Numeral.unsignedChars
  dsimp only at *
  rw [takeWhile_digits hdigits hrest, dropWhile_digits hdigits hrest, hempty, Bool.false_and,
    if_neg Bool.false_ne_true]
  cases places with
  | some ds =>
    simp only [Numeral.placesChars, List.cons_append, takeWhile_digits (hplaces ds rfl).1 hend,
      dropWhile_digits (hplaces ds rfl).1 hend, hexponent, Option.map_some]
    rfl
  | none =>
    simp only [Numeral.placesChars, List.nil_append]
    split
    case h_1 rest' heq =>
      cases exponent with
      | none => cases heq
      | some e =>
        have hpoint := (List.cons.inj heq).1
        cases hpoint
    case h_2 =>
      rw [hexponent]
      rfl

theorem sign_chars (h : n.WellFormed) : sign n.chars = (n.negative, n.unsignedChars) := by
  unfold Numeral.chars signed
  cases hneg : n.negative with
  | true => rfl
  | false =>
    obtain ⟨c, rest, hdigit, hchars⟩ := Json.exists_unsignedChars_cons h
    rw [if_neg Bool.false_ne_true, hchars, sign]
    · intro cs hcs
      obtain ⟨rfl, -⟩ := List.cons.inj hcs
      cases hdigit
    · intro cs hcs
      obtain ⟨rfl, -⟩ := List.cons.inj hcs
      cases hdigit

/-- What starts with a digit is no name of infinity or of what is no number. -/
theorem lowered_ne_of_isDigit {c d : Char} (hc : c.isDigit) (hd : d.isDigit = false)
    (cs : List Char) {name : String} (hname : name.toList.head? = some d) :
    (String.ofList ((c :: cs).map Char.toLower) == name) = false := by
  rw [beq_eq_false_iff_ne]
  rintro rfl
  rw [String.toList_ofList, List.map_cons, List.head?_cons, Option.some.injEq] at hname
  have hlower : c.toLower = c := by
    unfold Char.toLower
    rw [dif_neg]
    simp only [Char.isDigit, Bool.and_eq_true, decide_eq_true_eq, ge_iff_le,
      UInt32.le_iff_toNat_le] at hc ⊢
    have h9 : '9'.val.toNat = 57 := rfl
    have hA : 'A'.val.toNat = 65 := rfl
    omega
  rw [hlower] at hname
  rw [hname, hd] at hc
  cases hc

/-- A literal is read as what it denotes. -/
theorem read?_chars (h : n.WellFormed) : read? (String.ofList n.chars) = some (ofNumeral n) := by
  obtain ⟨c, rest, hdigit, hchars⟩ := Json.exists_unsignedChars_cons h
  have hname : ∀ {name : String} {d : Char}, name.toList.head? = some d → d.isDigit = false →
      (String.ofList (n.unsignedChars.map Char.toLower) == name) = false := by
    intro name d hhead hd
    rw [hchars]
    exact lowered_ne_of_isDigit hdigit hd _ hhead
  unfold read?
  rw [String.toList_ofList, sign_chars h]
  dsimp only
  rw [hname (d := 'n') rfl rfl, hname (d := 'i') rfl rfl, hname (d := 'i') rfl rfl,
    if_neg Bool.false_ne_true, Bool.or_false, if_neg Bool.false_ne_true]
  exact unsigned?_unsignedChars h

end Literals

/-! ## Plain forms -/

/-- Digits that are written out are a literal. -/
theorem exists_numeral_digits (negative : Bool) {k : Nat} (hk : 0 < k) (p : Int) :
    ∃ n : Numeral, n.negative = negative ∧ n.WellFormed ∧
      n.unsignedChars = positional (digitsOf k) ((digitsOf k).length + p) ∧
      n.decimal.value = k * 10 ^ p := by
  by_cases hall : ((digitsOf k).length : Int) ≤ (digitsOf k).length + p
  · -- a whole number: zeros up to the point
    obtain ⟨q, rfl⟩ : ∃ q : ℕ, p = q := ⟨p.toNat, by omega⟩
    have hzeros : ((digitsOf k).length + (q : Int) - (digitsOf k).length).toNat = q := by omega
    have hwhole := Json.isWhole_digitsOf_append hk (zeros q)
    refine ⟨⟨negative, digitsOf k ++ zeros q, none, none⟩, rfl, ⟨hwhole, ?_, by simp⟩, ?_, ?_⟩
    · exact (allDigits_digitsOf k).append (allDigits_zeros q)
    · rw [positional, if_pos hall, hzeros]
      simp [Numeral.unsignedChars, Numeral.placesChars, Numeral.exponentPart]
    · have hcoefficient : valueFrom 0 (digitsOf k ++ zeros q) = k * tenTo q := by
        rw [valueFrom_append, valueFrom_digitsOf, valueFrom_zeros]
      show ((valueFrom 0 (digitsOf k ++ zeros q) : ℕ) : ℚ) * 10 ^ (0 : ℤ) = _
      rw [hcoefficient, Nat.cast_mul, tenTo_cast, zpow_zero, mul_one]
  · obtain ⟨n, hneg, hwell, -, hchars, hvalue⟩ :=
      Json.exists_numeral_fraction (p := p) negative hk (by omega)
    exact ⟨n, hneg, hwell, hchars, hvalue⟩

/-- The plain form of a finite number is a literal that denotes it. -/
theorem exists_numeral_plain {x : Float} (hx : x.isFinite) :
    ∃ n : Numeral, n.WellFormed ∧ plainChars x = n.chars ∧ ofNumeral n = x := by
  obtain ⟨negative, m, e, hp⟩ := isFinite_iff.mp hx
  obtain ⟨hc, he, -⟩ := encode_parts hp
  unfold plainChars
  rw [hp]
  rcases Nat.eq_zero_or_pos m with rfl | hm
  · have he' : e = -1074 := hc.normal.resolve_left (by decide)
    refine ⟨⟨negative, ['0'], none, none⟩, ⟨rfl, Json.allDigits_zero, by simp⟩, rfl, ?_⟩
    refine eq_of_parts_eq ?_ hp
    rw [he']
    exact parts_nearest_zero negative
  · have hround := roundsTo_shortest hc he hm .up
    obtain ⟨n, hneg, hwell, hchars, hvalue⟩ :=
      exists_numeral_digits negative (coefficient_pos hm hround) (shortest .up m e).exponent
    refine ⟨n, hwell, ?_, ?_⟩
    · obtain ⟨m, rfl⟩ := Nat.exists_eq_add_one.mpr hm
      simp only [Numeral.chars, hneg, hchars]
    · refine eq_of_parts_eq ?_ hp
      rw [ofNumeral, hneg]
      exact parts_ofDecimal hc he hm (by rwa [hvalue]) negative

/-- A number is read back from its plain form: the others than the finite ones have names. -/
theorem read?_plain (x : Float) : read? (plain x) = some x := by
  by_cases hx : x.isFinite
  · obtain ⟨n, hwell, hchars, hn⟩ := exists_numeral_plain hx
    rw [plain, hchars, read?_chars hwell, hn]
  · cases hp : parts x with
    | finite negative m e => exact absurd (isFinite_iff.mpr ⟨negative, m, e, hp⟩) hx
    | nan =>
      have hx : x = Float.ofBits 0x7ff8000000000000 := parts_inj (hp.trans (by decide))
      rw [hx]
      decide +kernel
    | infinite negative =>
      have hx : x = nearest negative (twoTo 1024) 1 :=
        parts_inj (hp.trans (by cases negative <;> decide +kernel))
      rw [hx]
      cases negative <;> decide +kernel

theorem isBlank_of_isWordChar {c : Char} (h : Json.isWordChar c) : Text.isBlank c = false := by
  simp only [Json.isWordChar, Bool.or_eq_true, beq_iff_eq] at h
  rcases h with ((h | rfl) | rfl) | rfl
  · exact Text.isBlank_of_isAlphanum h
  all_goals decide

/-- The characters of a literal are the text of a field. -/
theorem isFilled_chars {n : Numeral} (h : n.WellFormed) : Text.IsFilled (String.ofList n.chars) := by
  refine Text.isFilled_of_noBlank ?_ fun c hc => isBlank_of_isWordChar (Json.isWordChar_chars h c hc)
  intro hnil
  have hread := Json.numeral?_chars h
  rw [hnil] at hread
  cases hread

theorem isFilled_plain {x : Float} (hx : x.isFinite) : Text.IsFilled (plain x) := by
  obtain ⟨n, hwell, hchars, -⟩ := exists_numeral_plain hx
  rw [plain, hchars]
  exact isFilled_chars hwell

end LoginForest.Number

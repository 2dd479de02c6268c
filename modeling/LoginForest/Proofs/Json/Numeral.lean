/-
  Number literals. A well-formed literal is read however its exponent is written
  (`numeral?_of_spells`), so also off its own characters, and the literals that counts and finite
  numbers are written as denote the same again (`toNumber?_count`, `exists_numeral_real`), bit for
  bit.
-/
import LoginForest.Json.Token
import LoginForest.Json.Value
import LoginForest.Proofs.Number.Digits
import LoginForest.Proofs.Number.Shortest

namespace LoginForest.Json

open LoginForest.Number hiding value

/-! ## The characters of a literal -/

namespace Numeral

/-- The point and the digits behind it. -/
def placesChars : Option (List Char) → List Char
  | none => []
  | some ds => '.' :: ds

def exponentPart : Option Int → List Char
  | none => []
  | some e => exponentChars e

/-- The literal without its sign. -/
def unsignedChars (n : Numeral) : List Char :=
  n.whole ++ (placesChars n.places ++ exponentPart n.exponent)

def chars (n : Numeral) : List Char := signed n.negative n.unsignedChars

structure WellFormed (n : Numeral) : Prop where
  isWhole : isWhole n.whole
  digits : AllDigits n.whole
  places : ∀ ds, n.places = some ds → AllDigits ds ∧ ds ≠ []

end Numeral

/-- The ways to write an exponent: after either mark, with a sign or without. -/
inductive SpellsExponent : Option Int → List Char → Prop
  | absent : SpellsExponent none []
  | present {mark : Char} {sign ds : List Char} : mark ∈ ['e', 'E'] → sign ∈ [[], ['+'], ['-']] →
    AllDigits ds → ds ≠ [] →
    SpellsExponent (some (if sign = ['-'] then -(valueFrom 0 ds : Int) else valueFrom 0 ds))
      (mark :: (sign ++ ds))

/-- The ways to write a literal. -/
def SpellsNumeral (n : Numeral) (cs : List Char) : Prop :=
  n.WellFormed ∧ ∃ tail, SpellsExponent n.exponent tail ∧
    cs = signed n.negative (n.whole ++ (Numeral.placesChars n.places ++ tail))

theorem spellsExponent_exponentPart (e : Option Int) :
    SpellsExponent e (Numeral.exponentPart e) := by
  cases e with
  | none => exact .absent
  | some e =>
    have hdigits := allDigits_digitsOf e.natAbs
    have hne := digitsOf_ne_nil e.natAbs
    show SpellsExponent (some e) (exponentChars e)
    unfold exponentChars
    by_cases he : e < 0
    · have hspelled := @SpellsExponent.present 'e' ['-'] _ (by decide) (by decide) hdigits hne
      have hvalue : -(e.natAbs : Int) = e := by omega
      rw [if_pos rfl, valueFrom_digitsOf, hvalue] at hspelled
      rwa [if_pos he]
    · have hspelled := @SpellsExponent.present 'e' ['+'] _ (by decide) (by decide) hdigits hne
      have hvalue : (e.natAbs : Int) = e := by omega
      rw [if_neg (by decide), valueFrom_digitsOf, hvalue] at hspelled
      rwa [if_neg he]

/-- A literal is written as its own characters. -/
theorem spellsNumeral_chars {n : Numeral} (h : n.WellFormed) : SpellsNumeral n n.chars :=
  ⟨h, _, spellsExponent_exponentPart n.exponent, rfl⟩

theorem SpellsExponent.noDigit {e : Option Int} {tail : List Char} (h : SpellsExponent e tail) :
    NoDigit tail := by
  cases h with
  | absent => exact noDigit_nil
  | present hmark =>
    refine noDigit_cons ?_
    rcases List.mem_pair.mp hmark with rfl | rfl <;> decide

theorem noDigit_exponentPart (e : Option Int) : NoDigit (Numeral.exponentPart e) :=
  (spellsExponent_exponentPart e).noDigit

theorem noDigit_placesChars (ds : Option (List Char)) {tail : List Char} (h : NoDigit tail) :
    NoDigit (Numeral.placesChars ds ++ tail) := by
  cases ds with
  | none => exact h
  | some ds => exact noDigit_cons (by decide)

theorem SpellsExponent.exponent? {e : Int} {tail : List Char} (h : SpellsExponent (some e) tail) :
    exponent? tail = some e := by
  cases h with
  | @present mark signs ds hmark hsign hds hne =>
    have hread : (sign (signs ++ ds)) = (decide (signs = ['-']), ds) := by
      obtain ⟨d, rest, rfl⟩ := List.exists_cons_of_ne_nil hne
      have hdigit := hds d List.mem_cons_self
      simp only [List.mem_cons, List.not_mem_nil, or_false] at hsign
      rcases hsign with rfl | rfl | rfl
      · unfold sign
        split
        case h_1 heq =>
          obtain rfl := (List.cons.inj heq).1
          cases hdigit
        case h_2 heq =>
          obtain rfl := (List.cons.inj heq).1
          cases hdigit
        case h_3 => rfl
      · rfl
      · rfl
    have hdigits : (digits? ds).map (fun n => if decide (signs = ['-']) then -(n : Int) else n) =
        some (if signs = ['-'] then -(valueFrom 0 ds : Int) else valueFrom 0 ds) := by
      rw [digits?_of_allDigits hds hne]
      simp
    rcases List.mem_pair.mp hmark with rfl | rfl
    · simp only [LoginForest.Number.exponent?, hread, hdigits, beq_self_eq_true, Bool.true_or,
        if_true]
    · simp only [LoginForest.Number.exponent?, hread, hdigits, beq_self_eq_true, Bool.or_true,
        if_true]

theorem isWhole_cons {cs : List Char} (h : isWhole cs) :
    ∃ c rest, cs = c :: rest := by
  cases cs with
  | nil => cases h
  | cons c rest => exact ⟨c, rest, rfl⟩

theorem isWhole_of_head {cs : List Char} (hne : cs ≠ []) (h : cs.head? ≠ some '0') :
    isWhole cs := by
  unfold isWhole
  split
  · exact absurd rfl hne
  · rfl
  · exact absurd rfl h
  · rfl

theorem isWhole_digitsOf_append {k : Nat} (hk : 0 < k) (cs : List Char) :
    isWhole (digitsOf k ++ cs) := by
  have hne := digitsOf_ne_nil k
  refine isWhole_of_head (List.append_ne_nil_of_left_ne_nil hne cs) ?_
  rw [List.head?_append_of_ne_nil _ hne]
  exact head_digitsOf hk

theorem allDigits_zero : AllDigits ['0'] := allDigits_zeros 1

theorem unsignedNumeral?_of_spells {n : Numeral} (h : n.WellFormed) {tail : List Char}
    (ht : SpellsExponent n.exponent tail) :
    unsignedNumeral? n.negative (n.whole ++ (Numeral.placesChars n.places ++ tail)) = some n := by
  obtain ⟨negative, whole, places, exponent⟩ := n
  obtain ⟨hwhole, hdigits, hplaces⟩ := h
  have hend := ht.noDigit
  have hrest := noDigit_placesChars places hend
  unfold unsignedNumeral?
  dsimp only at *
  rw [takeWhile_digits hdigits hrest, dropWhile_digits hdigits hrest, hwhole, if_neg (by simp)]
  cases places with
  | some ds =>
    obtain ⟨hds, hne⟩ := hplaces ds rfl
    simp only [Numeral.placesChars, List.cons_append, takeWhile_digits hds hend,
      dropWhile_digits hds hend]
    rw [if_neg (by simpa using hne)]
    cases ht with
    | absent => rfl
    | present hmark hsign hdigits' hne' =>
      show Option.map _ (exponent? _) = _
      rw [(SpellsExponent.present hmark hsign hdigits' hne').exponent?]
      rfl
  | none =>
    cases ht with
    | absent => rfl
    | present hmark hsign hdigits' hne' =>
      have hread := (SpellsExponent.present hmark hsign hdigits' hne').exponent?
      have hnumeral := congrArg
        (Option.map fun e => (⟨negative, whole, none, some e⟩ : Numeral)) hread
      -- the mark is no point
      rcases List.mem_pair.mp hmark with rfl | rfl
      · exact hnumeral
      · exact hnumeral

/-- The whole part starts with a digit. -/
theorem exists_whole_cons {n : Numeral} (h : n.WellFormed) :
    ∃ c rest, c.isDigit ∧ n.whole = c :: rest := by
  obtain ⟨c, rest, hwhole⟩ := isWhole_cons h.isWhole
  exact ⟨c, rest, h.digits c (by rw [hwhole]; exact List.mem_cons_self), hwhole⟩

/-- The characters of a literal start with a digit, its sign aside. -/
theorem exists_unsignedChars_cons {n : Numeral} (h : n.WellFormed) :
    ∃ c rest, c.isDigit ∧ n.unsignedChars = c :: rest := by
  obtain ⟨c, rest, hdigit, hwhole⟩ := exists_whole_cons h
  refine ⟨c, rest ++ (Numeral.placesChars n.places ++ Numeral.exponentPart n.exponent), hdigit, ?_⟩
  unfold Numeral.unsignedChars
  rw [hwhole]
  rfl

/-- A literal is read however its exponent is written. -/
theorem numeral?_of_spells {n : Numeral} {cs : List Char} (h : SpellsNumeral n cs) :
    numeral? cs = some n := by
  obtain ⟨hwell, tail, htail, rfl⟩ := h
  have hread := unsignedNumeral?_of_spells hwell htail
  unfold signed
  cases hneg : n.negative with
  | true =>
    rw [hneg] at hread
    exact hread
  | false =>
    rw [hneg] at hread
    obtain ⟨c, rest, hdigit, hwhole⟩ := exists_whole_cons hwell
    rw [if_neg Bool.false_ne_true, numeral?, hread]
    intro cs hcs
    rw [hwhole] at hcs
    obtain ⟨rfl, -⟩ := List.cons.inj hcs
    cases hdigit

/-- A literal is read off its characters. -/
theorem numeral?_chars {n : Numeral} (h : n.WellFormed) : numeral? n.chars = some n :=
  numeral?_of_spells (spellsNumeral_chars h)

/-! ## Counts -/

/-- The literal of a count. -/
def countNumeral (n : Nat) : Numeral := ⟨false, digitsOf n, none, none⟩

theorem wellFormed_countNumeral (n : Nat) : (countNumeral n).WellFormed := by
  refine ⟨?_, allDigits_digitsOf n, fun ds h => by cases h⟩
  rcases Nat.eq_zero_or_pos n with rfl | hn
  · decide
  · exact isWhole_of_head (digitsOf_ne_nil n) (head_digitsOf hn)

theorem chars_countNumeral (n : Nat) : (countNumeral n).chars = digitsOf n := by
  simp [Numeral.chars, countNumeral, signed, Numeral.unsignedChars, Numeral.placesChars,
    Numeral.exponentPart]

/-- The literal of a count of 64 bits denotes it. -/
theorem toNumber?_count {n : Nat} (h : n < twoTo 64) :
    (countNumeral n).toNumber? = some (.count n) := by
  simp [Numeral.toNumber?, countNumeral, valueFrom_digitsOf, h]

/-- The literal of a larger count denotes no count. -/
theorem toNumber?_ne_count {n : Nat} (h : ¬ n < twoTo 64) (k : Nat) :
    (countNumeral n).toNumber? ≠ some (.count k) := by
  unfold Numeral.toNumber?
  simp only [countNumeral, valueFrom_digitsOf, Bool.false_eq_true, ite_false]
  rw [if_neg h]
  split
  · simp
  · simp

/-! ## Finite numbers -/

namespace Numeral

/-- The decimal that a literal denotes, its sign aside. -/
def decimal (n : Numeral) : Decimal :=
  ⟨valueFrom (valueFrom 0 n.whole) (n.places.getD []),
    n.exponent.getD 0 - (n.places.getD []).length⟩

/-- A literal with a point or an exponent is not read as a count. -/
def IsReal (n : Numeral) : Prop := n.places ≠ none ∨ n.exponent ≠ none

theorem toNumber?_of_isReal {n : Numeral} (h : n.IsReal)
    (hx : (ofDecimal n.negative n.decimal.coefficient n.decimal.exponent).isFinite) :
    n.toNumber? =
      some (.real (ofDecimal n.negative n.decimal.coefficient n.decimal.exponent)) := by
  obtain ⟨negative, whole, places, exponent⟩ := n
  cases places with
  | some ds => cases exponent <;> exact if_pos hx
  | none =>
    cases exponent with
    | some e => exact if_pos hx
    | none => exact absurd rfl (h.resolve_left (· rfl))

end Numeral

/-- The literal of a digit in front of a point, and an exponent. -/
theorem exists_numeral_scientific (negative : Bool) {k : Nat} (hk : 0 < k) (p : Int) :
    ∃ n : Numeral, n.negative = negative ∧ n.WellFormed ∧ n.IsReal ∧
      n.unsignedChars = scientific (digitsOf k) ((digitsOf k).length + p) ∧
      n.decimal = ⟨k, p⟩ := by
  have hdigits := allDigits_digitsOf k
  have hvalue := valueFrom_digitsOf k
  have hhead := head_digitsOf hk
  cases hd : digitsOf k with
  | nil => exact absurd hd (digitsOf_ne_nil k)
  | cons d ds =>
    rw [hd] at hdigits hvalue hhead
    have hd' : isWhole [d] := isWhole_of_head (List.cons_ne_nil _ _) hhead
    cases ds with
    | nil =>
      refine ⟨⟨negative, [d], none, some p⟩, rfl, ⟨hd', hdigits, fun ds h => by cases h⟩,
        .inr (Option.some_ne_none _), ?_, ?_⟩
      · simp [Numeral.unsignedChars, Numeral.placesChars, Numeral.exponentPart, scientific]
      · simp [Numeral.decimal, valueFrom] at hvalue ⊢
        exact hvalue
    | cons d' ds =>
      refine ⟨⟨negative, [d], some (d' :: ds), some (p + (d' :: ds).length)⟩, rfl,
        ⟨hd', fun c hc => hdigits c (by simp_all), ?_⟩, .inr (Option.some_ne_none _), ?_, ?_⟩
      · rintro _ ⟨⟩
        exact ⟨fun c hc => hdigits c (List.mem_cons_of_mem d hc), List.cons_ne_nil _ _⟩
      · have hexp : ((d :: d' :: ds).length : Int) + p - 1 = p + (d' :: ds).length := by
          simp only [List.length_cons]
          omega
        simp only [Numeral.unsignedChars, Numeral.placesChars, Numeral.exponentPart, scientific,
          hexp]
        rfl
      · have hfront : valueFrom (valueFrom 0 [d]) (d' :: ds) = k := by
          rw [← valueFrom_append]
          exact hvalue
        simp [Numeral.decimal, hfront]

/-- The literal of digits around a point. -/
theorem exists_numeral_pointed (negative : Bool) {whole places : List Char}
    (hwhole : isWhole whole) (hdigits : AllDigits whole) (hplaces : AllDigits places)
    (hne : places ≠ []) :
    ∃ n : Numeral, n.negative = negative ∧ n.WellFormed ∧ n.IsReal ∧
      n.unsignedChars = whole ++ '.' :: places ∧
      n.decimal.value = valueFrom 0 (whole ++ places) * 10 ^ (-(places.length : Int)) := by
  refine ⟨⟨negative, whole, some places, none⟩, rfl, ⟨hwhole, hdigits, ?_⟩,
    .inl (Option.some_ne_none _), ?_, ?_⟩
  · rintro _ ⟨⟩
    exact ⟨hplaces, hne⟩
  · simp [Numeral.unsignedChars, Numeral.placesChars, Numeral.exponentPart]
  · simp [Numeral.decimal, Decimal.value, valueFrom_append]

/-- Digits with a point before their end are a literal. -/
theorem exists_numeral_fraction (negative : Bool) {k : Nat} (hk : 0 < k) {p : Int} (hp : p < 0) :
    ∃ n : Numeral, n.negative = negative ∧ n.WellFormed ∧ n.IsReal ∧
      n.unsignedChars = positional (digitsOf k) ((digitsOf k).length + p) ∧
      n.decimal.value = k * 10 ^ p := by
  have hdigits := allDigits_digitsOf k
  have hhead := head_digitsOf hk
  have hvalue := valueFrom_digitsOf k
  have hne := digitsOf_ne_nil k
  generalize digitsOf k = ds at *
  rw [positional, if_neg (by omega)]
  by_cases hfront : 0 < (ds.length : Int) + p
  · rw [if_pos hfront]
    generalize hcut : ((ds.length : Int) + p).toNat = cut
    have hpos : cut ≠ 0 := by omega
    have hwhole : isWhole (ds.take cut) := by
      refine isWhole_of_head (by simp [List.take_eq_nil_iff, hpos, hne]) ?_
      rwa [List.head?_take, if_neg hpos]
    have hdrop : ds.drop cut ≠ [] := by
      rw [ne_eq, List.drop_eq_nil_iff]
      omega
    obtain ⟨n, hneg, hwell, hreal, hchars, hn⟩ := exists_numeral_pointed negative hwhole
      (hdigits.take cut) (hdigits.drop cut) hdrop
    refine ⟨n, hneg, hwell, hreal, hchars, ?_⟩
    have hexp : -((ds.drop cut).length : Int) = p := by
      rw [List.length_drop]
      omega
    rw [hn, List.take_append_drop, hvalue, hexp]
  · rw [if_neg hfront]
    generalize hgap : (-((ds.length : Int) + p)).toNat = gap
    obtain ⟨n, hneg, hwell, hreal, hchars, hn⟩ := exists_numeral_pointed negative
      (rfl : isWhole ['0'] = true) allDigits_zero ((allDigits_zeros gap).append hdigits)
      (List.append_ne_nil_of_right_ne_nil _ hne)
    refine ⟨n, hneg, hwell, hreal, hchars, ?_⟩
    have hjoin : valueFrom 0 (['0'] ++ (zeros gap ++ ds)) = k := by
      have happend : ['0'] ++ (zeros gap ++ ds) = zeros (gap + 1) ++ ds := rfl
      rw [happend, valueFrom_append, valueFrom_zeros, Nat.zero_mul, hvalue]
    have hexp : -((zeros gap ++ ds).length : Int) = p := by
      rw [List.length_append, zeros, List.length_replicate]
      omega
    rw [hn, hjoin, hexp]

/-- The literal of digits that are written out, with a zero behind the point of a whole number. -/
theorem exists_numeral_positional (negative : Bool) {k : Nat} (hk : 0 < k) (p : Int) :
    ∃ n : Numeral, n.negative = negative ∧ n.WellFormed ∧ n.IsReal ∧
      n.unsignedChars = (if ((digitsOf k).length : Int) ≤ (digitsOf k).length + p then
        positional (digitsOf k) ((digitsOf k).length + p) ++ ['.', '0']
        else positional (digitsOf k) ((digitsOf k).length + p)) ∧
      n.decimal.value = k * 10 ^ p := by
  by_cases hall : ((digitsOf k).length : Int) ≤ (digitsOf k).length + p
  · -- a whole number: zeros up to the point
    obtain ⟨q, rfl⟩ : ∃ q : ℕ, p = q := ⟨p.toNat, by omega⟩
    obtain ⟨n, hneg, hwell, hreal, hchars, hn⟩ := exists_numeral_pointed negative
      (isWhole_digitsOf_append hk (zeros q)) ((allDigits_digitsOf k).append (allDigits_zeros q))
      allDigits_zero (List.cons_ne_nil _ _)
    refine ⟨n, hneg, hwell, hreal, ?_, ?_⟩
    · rw [hchars, if_pos hall, positional, if_pos hall]
      simp
    · have hzeros : valueFrom 0 (digitsOf k ++ zeros q ++ ['0']) = k * tenTo (q + 1) := by
        have happend : zeros q ++ ['0'] = zeros (q + 1) := List.replicate_succ'.symm
        rw [List.append_assoc, valueFrom_append, valueFrom_digitsOf, happend, valueFrom_zeros]
      rw [hn, hzeros, Nat.cast_mul, tenTo_cast, mul_assoc, ← zpow_add₀ (by norm_num)]
      simp
  · rw [if_neg hall]
    exact exists_numeral_fraction negative hk (by omega)

/-- The literal of a decimal in the shorter of both forms. -/
theorem exists_numeral_compact (negative : Bool) {d : Decimal} (hd : 0 < d.coefficient) :
    ∃ n : Numeral, n.negative = negative ∧ n.WellFormed ∧ n.IsReal ∧
      n.unsignedChars = compactFinite (digitsOf d.coefficient)
        ((digitsOf d.coefficient).length + d.exponent) ∧
      n.decimal.value = d.value := by
  unfold compactFinite
  by_cases hplace : -5 < ((digitsOf d.coefficient).length : Int) + d.exponent ∧
      ((digitsOf d.coefficient).length : Int) + d.exponent ≤ 16
  · rw [if_pos hplace]
    exact exists_numeral_positional negative hd d.exponent
  · rw [if_neg hplace]
    obtain ⟨n, hneg, hwell, hreal, hchars, hn⟩ :=
      exists_numeral_scientific negative hd d.exponent
    exact ⟨n, hneg, hwell, hreal, hchars, by rw [hn]⟩

/-- A finite number is written as a literal that denotes it. -/
theorem exists_numeral_real {x : Float} (hx : x.isFinite) :
    ∃ n : Numeral, n.WellFormed ∧ compactChars? x = some n.chars ∧
      n.toNumber? = some (.real x) := by
  obtain ⟨negative, m, e, hp⟩ := isFinite_iff.mp hx
  obtain ⟨hc, he, -⟩ := encode_parts hp
  have hread : ∀ {n : Numeral}, n.negative = negative → n.IsReal →
      parts (ofDecimal negative n.decimal.coefficient n.decimal.exponent) =
        .finite negative m e → n.toNumber? = some (.real x) := by
    intro n hneg hreal hparts
    have heq : ofDecimal n.negative n.decimal.coefficient n.decimal.exponent = x := by
      rw [hneg]
      exact eq_of_parts_eq hparts hp
    have := Numeral.toNumber?_of_isReal hreal (by rw [heq]; exact hx)
    rwa [heq] at this
  unfold compactChars?
  rw [hp]
  rcases Nat.eq_zero_or_pos m with rfl | hm
  · have he' : e = -1074 := hc.normal.resolve_left (by decide)
    refine ⟨⟨negative, ['0'], some ['0'], none⟩,
      ⟨rfl, allDigits_zero, ?_⟩, by cases negative <;> rfl, ?_⟩
    · rintro _ ⟨⟩
      exact ⟨allDigits_zero, List.cons_ne_nil _ _⟩
    · apply hread rfl (.inl (Option.some_ne_none _))
      rw [he']
      exact parts_nearest_zero negative
  · have hround := roundsTo_shortest hc he hm .even
    have hk := coefficient_pos hm hround
    obtain ⟨n, hneg, hwell, hreal, hchars, hvalue⟩ := exists_numeral_compact negative hk
    refine ⟨n, hwell, ?_, ?_⟩
    · obtain ⟨m, rfl⟩ := Nat.exists_eq_add_one.mpr hm
      simp only [Numeral.chars, hneg, hchars]
    · apply hread hneg hreal
      exact parts_ofDecimal hc he hm (by rwa [hvalue]) negative

end LoginForest.Json

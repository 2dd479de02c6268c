/-
  A timestamp is read back from its text, offset included (`read?_text`). The strict pattern takes
  the text when four digits tell the year. A year with a sign is refused by it; the pattern with a
  blank before the time takes the date only; and the next one takes all of the text.
-/
import LoginForest.Proofs.Time.ReadBack

namespace LoginForest.Time

open LoginForest.Number

/-! ## Offsets -/

theorem Offset.chars_eq (o : Offset) : o.chars = (if o.minutes < 0 then '-' else '+') ::
    (pairChars (o.minutes.natAbs / 60) ++ ':' :: pairChars (o.minutes.natAbs % 60)) := rfl

/-- An offset starts with its sign. -/
theorem Offset.exists_chars_cons (o : Offset) : ∃ c rest, o.chars = c :: rest ∧
    c.isDigit = false ∧ c ≠ '.' ∧ Text.isBlank c = false := by
  rw [o.chars_eq]
  refine ⟨_, _, rfl, ?_⟩
  split <;> decide

theorem offsetMinutes?_pairChars (z : Zone) {n : Nat} (hn : n < 60) :
    offsetMinutes? z (pairChars n) = some (n, []) := by
  have hread : number? 2 2 (pairChars n ++ []) = some (n, []) :=
    number?_pairChars (by decide) (hn.trans (by decide))
  rw [List.append_nil] at hread
  have hne : pairChars n ≠ [] := padZeros_ne_nil 2 n
  unfold offsetMinutes?
  split
  case h_1 heq => exact absurd heq hne
  case h_2 =>
    rw [hread, Option.bind_some]
    exact if_pos hn

theorem offsetColon?_pairChars (z : Zone) (n : Nat) :
    offsetColon? z (':' :: pairChars n) = some (pairChars n) := by
  have hdrop : (':' :: pairChars n).dropWhile (fun c => c == ':' || Text.isBlank c) =
      pairChars n := by
    obtain ⟨d, ds, hds⟩ := List.exists_cons_of_ne_nil (padZeros_ne_nil 2 n)
    have hd : d.isDigit := allDigits_padZeros 2 n d (by rw [hds]; exact List.mem_cons_self)
    have hcolon : d ≠ ':' := by
      rintro rfl
      cases hd
    rw [List.dropWhile_cons_of_pos (by decide), pairChars, hds]
    exact List.dropWhile_cons_of_neg (by simp [hcolon, isBlank_of_isDigit hd])
  cases z with
  | strict => rfl
  | relaxed => exact congrArg some hdrop
  | permissive => exact congrArg some hdrop

/-- An offset is read part by part. -/
theorem offset?_of_parts {z : Zone} {cs signless afterHours afterColon rest : List Char}
    {negative : Bool} {hours minutes : Nat} (hsign : offsetSign? cs = some (negative, signless))
    (hhours : number? 2 2 signless = some (hours, afterHours))
    (hcolon : offsetColon? z afterHours = some afterColon)
    (hminutes : offsetMinutes? z afterColon = some (minutes, rest)) :
    offset? z cs = some (if negative then -((hours * 60 + minutes : Nat) : Int)
      else (hours * 60 + minutes : Nat), rest) := by
  unfold offset?
  split
  case h_1 => cases hsign
  case h_2 => cases hsign
  case h_3 =>
    simp only [hsign, hhours, hcolon, hminutes, Option.bind_eq_bind, Option.bind_some]
    rfl

/-- The sign of an offset; either will do for zero. -/
inductive SpellsSign (o : Offset) : Char → Prop
  | plus : 0 ≤ o.minutes → SpellsSign o '+'
  | minus : o.minutes ≤ 0 → SpellsSign o '-'

theorem SpellsSign.offsetSign? {o : Offset} {sign : Char} (h : SpellsSign o sign)
    (cs : List Char) : ∃ negative, offsetSign? (sign :: cs) = some (negative, cs) ∧
      (if negative then -(o.minutes.natAbs : Int) else o.minutes.natAbs) = o.minutes := by
  cases h with
  | plus h => exact ⟨false, rfl, by simp only [Bool.false_eq_true, if_false]; omega⟩
  | minus h => exact ⟨true, rfl, by simp only [if_true]; omega⟩

theorem Offset.hours_lt (o : Offset) : o.minutes.natAbs / 60 < 100 := by
  have := o.gt
  have := o.lt
  omega

/-- Hours and minutes are read by every kind of zone. -/
theorem offset?_minutes (z : Zone) {o : Offset} {sign : Char} (h : SpellsSign o sign) :
    offset? z (sign :: (pairChars (o.minutes.natAbs / 60) ++
      ':' :: pairChars (o.minutes.natAbs % 60))) = some (o.minutes, []) := by
  obtain ⟨negative, hsign, hvalue⟩ := h.offsetSign? (pairChars (o.minutes.natAbs / 60) ++
    ':' :: pairChars (o.minutes.natAbs % 60))
  have htotal : o.minutes.natAbs / 60 * 60 + o.minutes.natAbs % 60 = o.minutes.natAbs := by
    omega
  rw [offset?_of_parts hsign (number?_pairChars (by decide) o.hours_lt)
    (offsetColon?_pairChars z _) (offsetMinutes?_pairChars z (Nat.mod_lt _ (by decide))), htotal,
    hvalue]

/-- An offset is read back, however it may be written. -/
theorem offset?_chars (z : Zone) (o : Offset) : offset? z o.chars = some (o.minutes, []) := by
  rw [o.chars_eq]
  split
  case isTrue hneg => exact offset?_minutes z (.minus (Int.le_of_lt hneg))
  case isFalse hneg => exact offset?_minutes z (.plus (Int.not_lt.mp hneg))

/-! ## Items -/

section Items

variable {rest : List Char}

theorem read?_exactYear (r : Reading) {y : Int} (hy : 0 ≤ y ∧ y ≤ 9999) :
    (Item.year true).read? r (yearChars y ++ rest) = some ({ r with year := y }, rest) := by
  have hlength : (padZeros 4 (digitsOf y.toNat)).length = 4 :=
    length_padZeros_digitsOf (by decide) (by show y.toNat < 10000; omega)
  have hvalue : (y.toNat : Int) = y := by omega
  rw [yearChars, if_pos hy, Item.read?, number?_digits (allDigits_padZeros 4 y.toNat) (by omega)
    (by omega) (.inl hlength), valueFrom_padZeros]
  exact congrArg (fun y => some ({ r with year := y }, rest)) hvalue

theorem read?_exactField (f : Field) (r : Reading) {n : Nat} (hn : n < 100) :
    (Item.field f true).read? r (pairChars n ++ rest) = some (f.set n r, rest) := by
  rw [Item.read?, number?_pairChars (by decide) hn]
  rfl

/-- No number starts with a character that is no digit. -/
theorem number?_of_noDigit {least most : Nat} (hleast : 0 < least) {c : Char}
    (hc : c.isDigit = false) : number? least most (c :: rest) = none := by
  have hshort : ¬ least ≤ ([] : List Char).length := Nat.not_le.mpr hleast
  have hnone : ((c :: rest).take most).takeWhile Char.isDigit = [] := by
    cases most with
    | zero => rfl
    | succ most => exact List.takeWhile_cons_of_neg (by simp [hc])
  rw [number?, digitRun?, hnone, if_neg hshort]
  rfl

theorem read?_zone {z : Zone} (hz : z ≠ .relaxed) (r : Reading) (o : Offset) :
    (Item.zone z).read? r o.chars = some ({ r with offset := o.minutes }, []) := by
  have hzone : zone? z o.chars = some (o.minutes, []) := by
    obtain ⟨c, rest, hchars, -, -, hblank⟩ := o.exists_chars_cons
    cases z with
    | strict => exact offset?_chars .strict o
    | relaxed => exact absurd rfl hz
    | permissive =>
      have htrim : Text.trimFront o.chars = o.chars := by
        rw [hchars]
        exact trimFront_cons hblank rest
      rw [zone?, htrim, offset?_chars]
  rw [Item.read?, hzone]
  rfl

end Items

/-! ## Patterns -/

/-! ## No blanks -/

theorem noBlank_padZeros (width n : Nat) : Text.NoBlank (padZeros width (digitsOf n)) :=
  fun c hc => isBlank_of_isDigit (allDigits_padZeros width n c hc)

theorem noBlank_pairChars (n : Nat) : Text.NoBlank (pairChars n) := noBlank_padZeros 2 n

theorem noBlank_yearChars (y : Int) : Text.NoBlank (yearChars y) := by
  unfold yearChars
  split
  · exact noBlank_padZeros _ _
  · refine .cons ?_ (noBlank_padZeros _ _)
    split <;> decide

theorem noBlank_fractionChars (n : Nat) : Text.NoBlank (fractionChars n) := by
  unfold fractionChars
  split
  · exact .nil
  · split
    · exact .cons (by decide) (noBlank_padZeros _ _)
    · split <;> exact .cons (by decide) (noBlank_padZeros _ _)

theorem Date.noBlank_chars (d : Date) : Text.NoBlank d.chars :=
  ((noBlank_yearChars _).append (.cons (by decide) (noBlank_pairChars _))).append
    (.cons (by decide) (noBlank_pairChars _))

namespace Timestamp

variable (t : Timestamp)

theorem month_lt : t.date.month < 100 := t.date.month_le.trans_lt (by decide)

theorem hour_lt : t.clock.hour < 100 := t.clock.hour_lt.trans (by decide)

theorem minute_lt : t.clock.minute < 100 := t.clock.minute_lt.trans (by decide)

/-- The strict pattern takes a text whose year has four digits. -/
theorem readItems?_strictPattern (hy : 0 ≤ t.date.year ∧ t.date.year ≤ 9999) :
    readItems? strictPattern {} (t.localChars ++ t.offset.chars) =
      some ({ t.written with offset := t.offset.minutes }, []) := by
  obtain ⟨hsecond, hnanos⟩ := t.clock.written_lt
  obtain ⟨c, rest, hchars, hdigit, hpoint, -⟩ := t.offset.exists_chars_cons
  have hzone := fun r => read?_zone (z := .strict) (by simp) r t.offset
  rw [hchars] at hzone
  rw [t.localChars_append, hchars, strictPattern, readItems?_cons (read?_exactYear _ hy),
    readItems?_cons (read?_mark _ _), readItems?_cons (read?_exactField _ _ t.month_lt),
    readItems?_cons (read?_mark _ _), readItems?_cons (read?_exactField _ _ t.date.day_lt),
    readItems?_cons (read?_separator _), readItems?_cons (read?_exactField _ _ t.hour_lt),
    readItems?_cons (read?_mark _ _), readItems?_cons (read?_exactField _ _ t.minute_lt),
    readItems?_cons (read?_mark _ _), readItems?_cons (read?_exactField _ _ hsecond),
    readItems?_cons (read?_fraction _ rfl hnanos hdigit hpoint), readItems?_cons (hzone _)]
  rfl

/-- A year with a sign does not start with four digits. -/
theorem readItems?_strictPattern_of_sign (hy : ¬ (0 ≤ t.date.year ∧ t.date.year ≤ 9999)) :
    readItems? strictPattern {} (t.localChars ++ t.offset.chars) = none := by
  have hyear : ∀ rest, number? 4 4 (yearChars t.date.year ++ rest) = none := by
    intro rest
    rw [yearChars, if_neg hy, List.cons_append]
    refine number?_of_noDigit (by decide) ?_
    split <;> decide
  rw [t.localChars_append, strictPattern, readItems?, Item.read?, hyear]
  rfl

/-- The mark before the time is no blank. -/
theorem readItems?_loosePattern_blanks (ending : List Item) :
    readItems? (loosePattern .blanks ending) {} (t.localChars ++ t.offset.chars) = none := by
  have hhour : ∀ (r : Reading) (rest : List Char),
      (Item.field .hour false).read? r ('T' :: rest) = none := by
    intro r rest
    rw [Item.read?, trimFront_cons (by decide), number?_of_noDigit (by decide) (by decide)]
    rfl
  rw [t.localChars_append, loosePattern, List.cons_append,
    readItems?_cons (read?_year _ _ (noDigit_cons (by decide))), List.cons_append,
    readItems?_cons (read?_mark _ _), List.cons_append,
    readItems?_cons (read?_field _ _ t.month_lt), List.cons_append,
    readItems?_cons (read?_mark _ _), List.cons_append,
    readItems?_cons (read?_field _ _ t.date.day_lt), List.cons_append,
    readItems?_cons (read?_blanks _ (by decide)), List.cons_append, readItems?, hhour]
  rfl

/-- The pattern with the mark before the time takes the text of every year. -/
theorem readItems?_loosePattern :
    readItems? (loosePattern (.mark 'T') [.zone .permissive]) {}
      (t.localChars ++ t.offset.chars) =
        some ({ t.written with offset := t.offset.minutes }, []) := by
  obtain ⟨hsecond, hnanos⟩ := t.clock.written_lt
  obtain ⟨c, rest, hchars, hdigit, hpoint, -⟩ := t.offset.exists_chars_cons
  have hzone := fun r => read?_zone (z := .permissive) (by simp) r t.offset
  rw [hchars] at hzone
  have hitems : loosePattern (.mark 'T') [.zone .permissive] =
      [.year false, .mark '-', .field .month false, .mark '-', .field .day false, .mark 'T',
        .field .hour false, .mark ':', .field .minute false, .mark ':', .field .second false,
        .fraction, .zone .permissive] := rfl
  rw [t.localChars_append, hchars, hitems,
    readItems?_cons (read?_year _ _ (noDigit_cons (by decide))),
    readItems?_cons (read?_mark _ _), readItems?_cons (read?_field _ _ t.month_lt),
    readItems?_cons (read?_mark _ _), readItems?_cons (read?_field _ _ t.date.day_lt),
    readItems?_cons (read?_mark _ _), readItems?_cons (read?_field _ _ t.hour_lt),
    readItems?_cons (read?_mark _ _), readItems?_cons (read?_field _ _ t.minute_lt),
    readItems?_cons (read?_mark _ _), readItems?_cons (read?_field _ _ hsecond),
    readItems?_cons (read?_fraction _ rfl hnanos hdigit hpoint), readItems?_cons (hzone _)]
  rfl

/-! ## Texts -/

theorem noBlank_chars : Text.NoBlank (t.localChars ++ t.offset.chars) := by
  have hcolon : Text.isBlank ':' = false := by decide
  have hoffset : Text.NoBlank t.offset.chars := by
    rw [t.offset.chars_eq]
    refine .cons ?_ ((noBlank_pairChars _).append (.cons hcolon (noBlank_pairChars _)))
    split <;> decide
  have hclock : Text.NoBlank t.clock.chars := by
    rw [t.clock.chars_eq]
    exact (((noBlank_pairChars _).append (.cons hcolon (noBlank_pairChars _))).append
      (.cons hcolon (noBlank_pairChars _))).append (noBlank_fractionChars _)
  exact (t.date.noBlank_chars.append (.cons (by decide) hclock)).append hoffset

/-- The text of a timestamp is the text of a field. -/
theorem isFilled_text : Text.IsFilled t.text := by
  refine Text.isFilled_of_noBlank ?_ t.noBlank_chars
  rw [t.localChars_append]
  simp

/-- A timestamp is read back from its text. -/
theorem read?_text : read? t.text = some t := by
  have htrim := t.isFilled_text.trimChars_eq
  have htake : ∀ {items}, readItems? items {} (t.localChars ++ t.offset.chars) =
      some ({ t.written with offset := t.offset.minutes }, []) →
        readAll? items (t.localChars ++ t.offset.chars) = some t := by
    intro items h
    rw [readAll?, h]
    exact t.timestamp?_written
  have hrefuse : ∀ {items}, readItems? items {} (t.localChars ++ t.offset.chars) = none →
      readAll? items (t.localChars ++ t.offset.chars) = none := by
    intro items h
    rw [readAll?, h]
  unfold read?
  rw [htrim, text, String.toList_ofList, patterns]
  by_cases hy : 0 ≤ t.date.year ∧ t.date.year ≤ 9999
  · rw [List.findSome?_cons_of_isSome (by rw [htake (t.readItems?_strictPattern hy)]; rfl),
      htake (t.readItems?_strictPattern hy)]
  · simp only [List.findSome?_cons, hrefuse (t.readItems?_strictPattern_of_sign hy),
      hrefuse (t.readItems?_loosePattern_blanks [.zone .permissive]),
      htake t.readItems?_loosePattern]

end Timestamp

end LoginForest.Time

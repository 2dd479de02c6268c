/-
  Timestamps as others write them (`Timestamp.IsWrittenAs`). The day and the time of day may have
  a `T` or a blank between them, the fraction any number of digits up to nine, and the offset its
  minutes or not, a `Z` or nothing at all in UTC. The patterns overlap, so two things are shown of
  each form: no pattern takes it with another meaning (`eq_of_readAll?`), and one of them takes it
  (`exists_readAll?_internet`, `exists_readAll?_joined`). So the first pattern that takes it gives
  the timestamp that was meant (`read?_of_spells`).
-/
import LoginForest.Proofs.Time.Stored
import Mathlib.Tactic.FinCases

namespace LoginForest.Time

open LoginForest.Number

/-! ## Forms -/

/-- An offset in hours and minutes, or the letter for UTC. -/
inductive SpellsFullOffset (o : Offset) : List Char → Prop
  | letter {c : Char} : c ∈ ['Z', 'z'] → o = .utc → SpellsFullOffset o [c]
  | minutes {sign : Char} : SpellsSign o sign → SpellsFullOffset o
      (sign :: (pairChars (o.minutes.natAbs / 60) ++ ':' :: pairChars (o.minutes.natAbs % 60)))

/-- An offset that may also be in hours alone, or left out in UTC. -/
inductive SpellsOffset (o : Offset) : List Char → Prop
  | full {cs : List Char} : SpellsFullOffset o cs → SpellsOffset o cs
  | hours {sign : Char} : SpellsSign o sign → o.minutes % 60 = 0 →
      SpellsOffset o (sign :: pairChars (o.minutes.natAbs / 60))
  | absent : o = .utc → SpellsOffset o []

/-- The fraction of a second, in as many digits as one likes up to nine. -/
inductive SpellsFraction (nanos : Nat) : List Char → Prop
  | absent : nanos = 0 → SpellsFraction nanos []
  | digits {ds : List Char} : AllDigits ds → ds ≠ [] → ds.length ≤ 9 →
      valueFrom 0 ds * tenTo (9 - ds.length) = nanos → SpellsFraction nanos ('.' :: ds)

/-- Hour, minute and second. -/
def Clock.secondChars (c : Clock) : List Char :=
  pairChars c.hour ++ ':' :: (pairChars c.minute ++ ':' :: pairChars c.second)

namespace Timestamp

/-- A timestamp without blanks around it: as on the internet, or with a looser offset. -/
inductive Spells (t : Timestamp) : List Char → Prop
  | internet {mark : Char} {fraction ending : List Char} : mark ∈ ['t', 'T', ' '] →
      SpellsFraction t.clock.nanos fraction → SpellsFullOffset t.offset ending →
      Spells t (t.date.chars ++ mark :: (t.clock.secondChars ++ (fraction ++ ending)))
  | joined {mark : Char} {fraction ending : List Char} : mark = 'T' ∨ Text.isBlank mark →
      SpellsFraction t.clock.nanos fraction → SpellsOffset t.offset ending →
      Spells t (t.date.chars ++ mark :: (t.clock.secondChars ++ (fraction ++ ending)))

/-- A text of the timestamp, with or without blanks around it. -/
def IsWrittenAs (t : Timestamp) (text : String) : Prop :=
  ∃ front cs back, text.toList = front ++ cs ++ back ∧ (∀ c ∈ front, Text.isBlank c) ∧
    (∀ c ∈ back, Text.isBlank c) ∧ t.Spells cs

end Timestamp

/-! ## Offsets -/

section Offsets

variable {o : Offset} {sign : Char} {cs : List Char}

theorem Offset.number?_hours (o : Offset) : number? 2 2 (pairChars (o.minutes.natAbs / 60)) =
    some (o.minutes.natAbs / 60, []) := by
  have hread : number? 2 2 (pairChars (o.minutes.natAbs / 60) ++ []) = some (_, []) :=
    number?_pairChars (by decide) o.hours_lt
  rwa [List.append_nil] at hread

/-- Hours alone are read by the permissive zone. -/
theorem offset?_hours (h : SpellsSign o sign) (hminutes : o.minutes % 60 = 0) :
    offset? .permissive (sign :: pairChars (o.minutes.natAbs / 60)) = some (o.minutes, []) := by
  obtain ⟨negative, hsign, hvalue⟩ := h.offsetSign? (pairChars (o.minutes.natAbs / 60))
  have htotal : o.minutes.natAbs / 60 * 60 + 0 = o.minutes.natAbs := by omega
  rw [offset?_of_parts hsign o.number?_hours rfl rfl, htotal, hvalue]

/-- The strict zone needs the minutes. -/
theorem offset?_strict_hours (h : SpellsSign o sign) :
    offset? .strict (sign :: pairChars (o.minutes.natAbs / 60)) = none := by
  obtain ⟨negative, hsign, -⟩ := h.offsetSign? (pairChars (o.minutes.natAbs / 60))
  unfold offset?
  split
  case h_1 heq =>
    obtain ⟨rfl, -⟩ := List.cons.inj heq
    cases hsign
  case h_2 heq =>
    obtain ⟨rfl, -⟩ := List.cons.inj heq
    cases hsign
  case h_3 =>
    simp only [hsign, o.number?_hours, offsetColon?, Option.bind_eq_bind, Option.bind_some,
      Option.bind_none]

theorem offset?_letter (z : Zone) {c : Char} (h : c ∈ ['Z', 'z']) (ho : o = .utc) :
    offset? z [c] = some (o.minutes, []) := by
  subst ho
  fin_cases h <;> rfl

theorem SpellsFullOffset.offset? (z : Zone) (h : SpellsFullOffset o cs) :
    offset? z cs = some (o.minutes, []) := by
  cases h with
  | letter hc ho => exact offset?_letter z hc ho
  | minutes hsign => exact offset?_minutes z hsign

/-- An offset does not go on with the fraction, nor with blanks. -/
theorem SpellsOffset.start (h : SpellsOffset o cs) : cs = [] ∧ o = .utc ∨ ∃ c rest,
    cs = c :: rest ∧ c.isDigit = false ∧ c ≠ '.' ∧ Text.isBlank c = false := by
  have hstart : ∀ {sign : Char}, SpellsSign o sign → sign.isDigit = false ∧ sign ≠ '.' ∧
      Text.isBlank sign = false := by
    intro sign hsign
    cases hsign <;> decide
  cases h with
  | full h =>
    cases h with
    | letter hc _ => exact .inr ⟨_, _, rfl, by fin_cases hc <;> decide⟩
    | minutes hsign => exact .inr ⟨_, _, rfl, hstart hsign⟩
  | hours hsign _ => exact .inr ⟨_, _, rfl, hstart hsign⟩
  | absent ho => exact .inl ⟨rfl, ho⟩

/-- A fraction ends before an offset. -/
theorem SpellsOffset.ends_fraction (h : SpellsOffset o cs) :
    NoDigit cs ∧ ∀ ds, cs ≠ '.' :: ds := by
  rcases h.start with ⟨rfl, -⟩ | ⟨c, rest, rfl, hdigit, hpoint, -⟩
  · exact ⟨noDigit_nil, by simp⟩
  · exact ⟨noDigit_cons hdigit, fun ds heq => hpoint (List.cons.inj heq).1⟩

theorem SpellsOffset.trimFront_eq (h : SpellsOffset o cs) : Text.trimFront cs = cs := by
  rcases h.start with ⟨rfl, -⟩ | ⟨c, rest, rfl, -, -, hblank⟩
  · rfl
  · exact trimFront_cons hblank rest

/-- The permissive zone reads an offset in any form. -/
theorem SpellsOffset.zone?_permissive (h : SpellsOffset o cs) (hne : cs ≠ []) :
    zone? .permissive cs = some (o.minutes, []) := by
  rw [zone?, h.trimFront_eq]
  cases h with
  | full h => exact h.offset? .permissive
  | hours hsign hminutes => exact offset?_hours hsign hminutes
  | absent => exact absurd rfl hne

/-- What the strict zone and the permissive one read of an offset is that offset. -/
theorem SpellsOffset.eq_of_zone? {z : Zone} {m : Int} {rest : List Char} (hz : z ≠ .relaxed)
    (h : SpellsOffset o cs) (hread : zone? z cs = some (m, rest)) : m = o.minutes := by
  cases z with
  | relaxed => exact absurd rfl hz
  | permissive =>
    by_cases hne : cs = []
    · subst hne
      cases hread
    · rw [h.zone?_permissive hne] at hread
      cases hread
      rfl
  | strict =>
    rw [zone?] at hread
    cases h with
    | full h =>
      rw [h.offset? .strict] at hread
      cases hread
      rfl
    | hours hsign _ =>
      rw [offset?_strict_hours hsign] at hread
      cases hread
    | absent => cases hread

end Offsets

/-! ## Items -/

section Items

variable {rest ending : List Char}

theorem SpellsFraction.read? {nanos : Nat} {fraction : List Char}
    (h : SpellsFraction nanos fraction) (hdigit : NoDigit ending)
    (hpoint : ∀ cs, ending ≠ '.' :: cs) (r : Reading) (hr : r.nanos = 0) :
    Item.fraction.read? r (fraction ++ ending) = some ({ r with nanos := nanos }, ending) := by
  cases h with
  | absent hzero =>
    rw [List.nil_append, Item.read?, hzero, ← hr]
    exact hpoint
  | digits hds hne hlength hvalue =>
    rw [List.cons_append, read?_digits r hds hne hlength hdigit, hvalue]

theorem exists_of_readItems?_cons {item : Item} {items : List Item} {r : Reading} {cs : List Char}
    {result : Reading × List Char} (h : readItems? (item :: items) r cs = some result) :
    ∃ r' cs', item.read? r cs = some (r', cs') ∧ readItems? items r' cs' = some result := by
  obtain ⟨⟨r', cs'⟩, hitem, hitems⟩ := Option.bind_eq_some_iff.mp h
  exact ⟨r', cs', hitem, hitems⟩

/-- The numbers of a day alone. -/
def Reading.ofDate (d : Date) : Reading where
  year := d.year
  month := d.month
  day := d.day

/-- Year, month and day. -/
def dateItems (exact : Bool) : List Item :=
  [.year exact, .mark '-', .field .month exact, .mark '-', .field .day exact]

/-- Hour, minute and second with its fraction. -/
def clockItems (exact : Bool) : List Item :=
  [.field .hour exact, .mark ':', .field .minute exact, .mark ':', .field .second exact, .fraction]

theorem read?_number (exact : Bool) (f : Field) (r : Reading) {n : Nat} (hn : n < 100) :
    (Item.field f exact).read? r (pairChars n ++ rest) = some (f.set n r, rest) := by
  cases exact with
  | true => exact read?_exactField f r hn
  | false => exact read?_field f r hn

theorem readItems?_dateItems (exact : Bool) (items : List Item) {d : Date}
    (hyear : 0 ≤ d.year ∧ d.year ≤ 9999) (rest : List Char) :
    readItems? (dateItems exact ++ items) {} (d.chars ++ rest) =
      readItems? items (.ofDate d) rest := by
  have hchars : d.chars ++ rest = yearChars d.year ++
      '-' :: (pairChars d.month ++ '-' :: (pairChars d.day ++ rest)) := by simp [Date.chars]
  have hyears : ∀ cs, (Item.year exact).read? {} (yearChars d.year ++ '-' :: cs) =
      some ({ year := d.year }, '-' :: cs) := fun cs => by
    cases exact with
    | true => exact read?_exactYear _ hyear
    | false => exact read?_year _ _ (noDigit_cons (by decide))
  rw [hchars, dateItems, List.cons_append, readItems?_cons (hyears _), List.cons_append,
    readItems?_cons (read?_mark _ _), List.cons_append,
    readItems?_cons (read?_number _ _ _ (d.month_le.trans_lt (by decide))), List.cons_append,
    readItems?_cons (read?_mark _ _), List.cons_append,
    readItems?_cons (read?_number _ _ _ d.day_lt)]
  rfl

theorem readItems?_clockItems (exact : Bool) (items : List Item) {c : Clock}
    {fraction : List Char} (hnanos : c.nanos < 1000000000)
    (hfraction : SpellsFraction c.nanos fraction) (hdigit : NoDigit ending)
    (hpoint : ∀ cs, ending ≠ '.' :: cs) (r : Reading) (hr : r.nanos = 0) :
    readItems? (clockItems exact ++ items) r (c.secondChars ++ (fraction ++ ending)) =
      readItems? items { r with hour := c.hour, minute := c.minute, second := c.written.1,
                                nanos := c.written.2 } ending := by
  have hwritten : c.written = (c.second, c.nanos) := if_pos hnanos
  have hchars : c.secondChars ++ (fraction ++ ending) = pairChars c.hour ++
      ':' :: (pairChars c.minute ++ ':' :: (pairChars c.second ++ (fraction ++ ending))) := by
    simp [Clock.secondChars]
  rw [hchars, clockItems, List.cons_append,
    readItems?_cons (read?_number _ _ _ (c.hour_lt.trans (by decide))), List.cons_append,
    readItems?_cons (read?_mark _ _), List.cons_append,
    readItems?_cons (read?_number _ _ _ (c.minute_lt.trans (by decide))), List.cons_append,
    readItems?_cons (read?_mark _ _), List.cons_append,
    readItems?_cons (read?_number _ _ _ (c.second_lt.trans (by decide))), hwritten]
  exact readItems?_cons (hfraction.read? hdigit hpoint _ (by exact hr)) items

theorem Clock.trimFront_secondChars (c : Clock) (rest : List Char) :
    Text.trimFront (c.secondChars ++ rest) = c.secondChars ++ rest := by
  rw [Clock.secondChars, List.append_assoc]
  exact trimFront_digits (allDigits_padZeros 2 c.hour) (padZeros_ne_nil 2 c.hour) _

theorem read?_oneOf {marks : List Char} {mark : Char} (h : mark ∈ marks) (r : Reading) :
    (Item.oneOf marks).read? r (mark :: rest) = some (r, rest) :=
  if_pos (List.elem_eq_true_of_mem h)

theorem read?_blank {mark : Char} (h : Text.isBlank mark) (hrest : Text.trimFront rest = rest)
    (r : Reading) : Item.blanks.read? r (mark :: rest) = some (r, rest) := by
  have htrim : Text.trimFront (mark :: rest) = rest :=
    (List.dropWhile_cons_of_pos h).trans hrest
  rw [Item.read?, htrim]

theorem readItems?_zone {z : Zone} {m : Int} (h : zone? z ending = some (m, [])) (r : Reading) :
    readItems? [.zone z] r ending = some ({ r with offset := m }, []) := by
  rw [readItems?, Item.read?, h]
  rfl

/-- What stands between day and time of day is taken, or left by the pattern that takes blanks
if it is none. -/
theorem eq_of_read?_mark {separator : Item} {mark : Char} {r r' : Reading} {rest' : List Char}
    (hseparator : separator ∈ [.oneOf ['t', 'T', ' '], .mark 'T', .blanks])
    (hrest : Text.trimFront rest = rest)
    (h : separator.read? r (mark :: rest) = some (r', rest')) :
    r' = r ∧ (rest' = rest ∨
      separator = .blanks ∧ rest' = mark :: rest ∧ Text.isBlank mark = false) := by
  simp only [List.mem_cons, List.not_mem_nil, or_false] at hseparator
  rcases hseparator with rfl | rfl | rfl
  · rw [Item.read?] at h
    split at h
    · cases h
      exact ⟨rfl, .inl rfl⟩
    · cases h
  · rw [Item.read?] at h
    split at h
    · cases h
      exact ⟨rfl, .inl rfl⟩
    · cases h
  · cases hblank : Text.isBlank mark with
    | true =>
      rw [read?_blank hblank hrest] at h
      cases h
      exact ⟨rfl, .inl rfl⟩
    | false =>
      rw [read?_blanks r hblank] at h
      cases h
      exact ⟨rfl, .inr ⟨rfl, rfl, rfl⟩⟩

end Items

/-! ## Patterns -/

/-- Each pattern reads a day, a mark and a time of day, and some go on with the offset. -/
theorem exists_parts_of_mem_patterns {items : List Item} (h : items ∈ patterns) :
    ∃ exact separator ending, items =
        dateItems exact ++ separator :: (clockItems exact ++ ending) ∧
      separator ∈ [.oneOf ['t', 'T', ' '], .mark 'T', .blanks] ∧
      (separator = .blanks → exact = false) ∧
      (ending = [] ∨ ∃ z, z ≠ .relaxed ∧ ending = [.zone z]) := by
  have hzone : ∀ z, z ≠ .relaxed → [Item.zone z] = [] ∨
      ∃ z', z' ≠ .relaxed ∧ [Item.zone z] = [.zone z'] := fun z hz => .inr ⟨z, hz, rfl⟩
  simp only [patterns, List.mem_cons, List.not_mem_nil, or_false] at h
  rcases h with rfl | rfl | rfl | rfl | rfl
  · exact ⟨true, .oneOf ['t', 'T', ' '], _, rfl, by simp, by simp, hzone .strict (by simp)⟩
  · exact ⟨false, .blanks, _, rfl, by simp, by simp, hzone .permissive (by simp)⟩
  · exact ⟨false, .mark 'T', _, rfl, by simp, by simp, hzone .permissive (by simp)⟩
  · exact ⟨false, .blanks, _, rfl, by simp, by simp, .inl rfl⟩
  · exact ⟨false, .mark 'T', _, rfl, by simp, by simp, .inl rfl⟩

theorem eq_of_readItems?_ending {items : List Item} {o : Offset} {cs : List Char}
    {r r' : Reading} (hitems : items = [] ∨ ∃ z, z ≠ .relaxed ∧ items = [.zone z])
    (h : SpellsOffset o cs) (hr : r.offset = 0) (hread : readItems? items r cs = some (r', [])) :
    r' = { r with offset := o.minutes } := by
  rcases hitems with rfl | ⟨z, hz, rfl⟩
  · obtain ⟨rfl, rfl⟩ := Prod.mk.inj (Option.some.inj hread)
    rcases h.start with ⟨-, rfl⟩ | ⟨c, rest, hcs, -⟩
    · show r = { r with offset := 0 }
      rw [← hr]
    · cases hcs
  · cases hzone : zone? z cs with
    | none =>
      rw [readItems?, Item.read?, hzone] at hread
      cases hread
    | some read =>
      obtain ⟨m, rest⟩ := read
      have hm := h.eq_of_zone? hz hzone
      rw [readItems?, Item.read?, hzone] at hread
      cases hread
      rw [← hm]

/-! ## No blanks -/

theorem Clock.noBlank_secondChars (c : Clock) : Text.NoBlank c.secondChars :=
  (noBlank_pairChars _).append (.cons (by decide) ((noBlank_pairChars _).append
    (.cons (by decide) (noBlank_pairChars _))))

theorem SpellsFraction.noBlank {nanos : Nat} {fraction : List Char}
    (h : SpellsFraction nanos fraction) : Text.NoBlank fraction := by
  cases h with
  | absent => exact .nil
  | digits hds => exact .cons (by decide) fun c hc => isBlank_of_isDigit (hds c hc)

theorem SpellsSign.isBlank_eq {o : Offset} {sign : Char} (h : SpellsSign o sign) :
    Text.isBlank sign = false := by
  cases h <;> decide

theorem SpellsOffset.noBlank {o : Offset} {ending : List Char} (h : SpellsOffset o ending) :
    Text.NoBlank ending := by
  cases h with
  | full h =>
    cases h with
    | letter hc => exact .cons (by fin_cases hc <;> decide) .nil
    | minutes hsign => exact .cons hsign.isBlank_eq ((noBlank_pairChars _).append
        (.cons (by decide) (noBlank_pairChars _)))
  | hours hsign => exact .cons hsign.isBlank_eq (noBlank_pairChars _)
  | absent => exact .nil

namespace Timestamp

section Parts

variable {t : Timestamp} {mark : Char} {fraction ending : List Char}
  (hyear : 0 ≤ t.date.year ∧ t.date.year ≤ 9999) (hnanos : t.clock.nanos < 1000000000)
  (hfraction : SpellsFraction t.clock.nanos fraction) (hending : SpellsOffset t.offset ending)

include hyear hnanos hfraction hending

/-- No pattern takes the text with another meaning. -/
theorem eq_of_readAll? {items : List Item} {t' : Timestamp} (hmark : mark.isDigit = false)
    (hitems : items ∈ patterns) (h : readAll? items (t.date.chars ++
      mark :: (t.clock.secondChars ++ (fraction ++ ending))) = some t') : t' = t := by
  obtain ⟨exact, separator, items, rfl, hseparator, hblanks, hitems⟩ :=
    exists_parts_of_mem_patterns hitems
  obtain ⟨hdigit, hpoint⟩ := hending.ends_fraction
  unfold readAll? at h
  split at h
  case h_1 r hread =>
    rw [readItems?_dateItems exact _ hyear] at hread
    obtain ⟨r', rest, htaken, hread⟩ := exists_of_readItems?_cons hread
    obtain ⟨rfl, rfl | ⟨rfl, rfl, hblank⟩⟩ :=
      eq_of_read?_mark hseparator (t.clock.trimFront_secondChars _) htaken
    · rw [readItems?_clockItems exact items hnanos hfraction hdigit hpoint (.ofDate t.date) rfl]
        at hread
      rw [eq_of_readItems?_ending hitems hending rfl hread] at h
      exact (Option.some.inj (t.timestamp?_written.symm.trans h)).symm
    · have hhour : ∀ (r : Reading) (cs : List Char),
          (Item.field .hour false).read? r (mark :: cs) = none := fun r cs => by
        rw [Item.read?, trimFront_cons hblank, number?_of_noDigit (by decide) hmark]
        rfl
      rw [hblanks rfl, clockItems, List.cons_append] at hread
      obtain ⟨r', rest, htaken, -⟩ := exists_of_readItems?_cons hread
      rw [hhour] at htaken
      cases htaken
  case h_2 => cases h

/-- A pattern takes the text if it takes the mark and the offset. -/
theorem readAll?_eq (exact : Bool) {separator : Item} {items : List Item}
    (hseparator : ∀ r rest, separator.read? r (mark :: (t.clock.secondChars ++ rest)) =
      some (r, t.clock.secondChars ++ rest))
    (hitems : readItems? items t.written ending =
      some ({ t.written with offset := t.offset.minutes }, [])) :
    readAll? (dateItems exact ++ separator :: (clockItems exact ++ items)) (t.date.chars ++
      mark :: (t.clock.secondChars ++ (fraction ++ ending))) = some t := by
  obtain ⟨hdigit, hpoint⟩ := hending.ends_fraction
  have hread : readItems? (dateItems exact ++ separator :: (clockItems exact ++ items)) {}
      (t.date.chars ++ mark :: (t.clock.secondChars ++ (fraction ++ ending))) =
        some ({ t.written with offset := t.offset.minutes }, []) := by
    rw [readItems?_dateItems exact _ hyear, readItems?_cons (hseparator _ _),
      readItems?_clockItems exact items hnanos hfraction hdigit hpoint (.ofDate t.date) rfl]
    exact hitems
  rw [readAll?, hread]
  exact t.timestamp?_written

/-- A text as on the internet is taken by the strict pattern. -/
theorem exists_readAll?_internet (hmark : mark ∈ ['t', 'T', ' '])
    (hfull : SpellsFullOffset t.offset ending) : ∃ items ∈ patterns, readAll? items
      (t.date.chars ++ mark :: (t.clock.secondChars ++ (fraction ++ ending))) = some t := by
  have hzone : zone? .strict ending = some (t.offset.minutes, []) := hfull.offset? .strict
  exact ⟨strictPattern, List.mem_cons_self, readAll?_eq hyear hnanos hfraction hending true
    (fun r _ => read?_oneOf hmark r) (readItems?_zone hzone _)⟩

/-- A text with a `T` or a blank is taken by one of the loose patterns. -/
theorem exists_readAll?_joined (hmark : mark = 'T' ∨ Text.isBlank mark) :
    ∃ items ∈ patterns, readAll? items
      (t.date.chars ++ mark :: (t.clock.secondChars ++ (fraction ++ ending))) = some t := by
  obtain ⟨items, hitems, hread⟩ : ∃ items ∈ [[Item.zone .permissive], []],
      readItems? items t.written ending =
        some ({ t.written with offset := t.offset.minutes }, []) := by
    rcases hending.start with ⟨rfl, ho⟩ | ⟨c, rest, rfl, -⟩
    · refine ⟨[], by simp, ?_⟩
      rw [ho]
      rfl
    · exact ⟨_, by simp, readItems?_zone (hending.zone?_permissive (by simp)) _⟩
  obtain ⟨separator, hseparator, htaken⟩ : ∃ separator ∈ [Item.mark 'T', .blanks], ∀ r rest,
      separator.read? r (mark :: (t.clock.secondChars ++ rest)) =
        some (r, t.clock.secondChars ++ rest) := by
    rcases hmark with rfl | hblank
    · exact ⟨.mark 'T', by simp, fun r rest => read?_mark r 'T'⟩
    · exact ⟨.blanks, by simp, fun r rest =>
        read?_blank hblank (t.clock.trimFront_secondChars rest) r⟩
  refine ⟨loosePattern separator items, ?_,
    readAll?_eq hyear hnanos hfraction hending false htaken hread⟩
  simp only [List.mem_cons, List.not_mem_nil, or_false] at hitems hseparator
  rcases hitems with rfl | rfl <;> rcases hseparator with rfl | rfl <;> simp [patterns]

end Parts

/-! ## Texts -/

section Texts

variable {t : Timestamp} {cs : List Char} {text : String}

theorem isDigit_of_isBlank {c : Char} (h : Text.isBlank c) : c.isDigit = false := by
  rw [Bool.eq_false_iff]
  intro hdigit
  rw [isBlank_of_isDigit hdigit] at h
  cases h

theorem Spells.findSome?_patterns (h : t.Spells cs) (hyear : 0 ≤ t.date.year ∧ t.date.year ≤ 9999)
    (hnanos : t.clock.nanos < 1000000000) :
    patterns.findSome? (fun items => readAll? items cs) = some t := by
  obtain ⟨honly, items, hitems, htaken⟩ :
      (∀ items ∈ patterns, ∀ t', readAll? items cs = some t' → t' = t) ∧
        ∃ items ∈ patterns, readAll? items cs = some t := by
    cases h with
    | internet hmark hfraction hfull =>
      refine ⟨fun items hitems t' => eq_of_readAll? hyear hnanos hfraction (.full hfull) ?_ hitems,
        exists_readAll?_internet hyear hnanos hfraction (.full hfull) hmark hfull⟩
      fin_cases hmark <;> decide
    | joined hmark hfraction hending =>
      refine ⟨fun items hitems t' => eq_of_readAll? hyear hnanos hfraction hending ?_ hitems,
        exists_readAll?_joined hyear hnanos hfraction hending hmark⟩
      rcases hmark with rfl | hblank
      · decide
      · exact isDigit_of_isBlank hblank
  cases hfind : patterns.findSome? (fun items => readAll? items cs) with
  | none =>
    rw [List.findSome?_eq_none_iff.mp hfind items hitems] at htaken
    cases htaken
  | some t' =>
    obtain ⟨items', hitems', hread⟩ := List.exists_of_findSome?_eq_some hfind
    rw [honly items' hitems' t' hread]

/-- A timestamp starts and ends with characters that are no blanks. -/
theorem Spells.trimChars_eq (h : t.Spells cs) : Text.trimChars cs = cs := by
  obtain ⟨mark, fraction, ending, rfl, hfraction, hending⟩ : ∃ mark fraction ending,
      cs = t.date.chars ++ mark :: (t.clock.secondChars ++ (fraction ++ ending)) ∧
        SpellsFraction t.clock.nanos fraction ∧ SpellsOffset t.offset ending := by
    cases h with
    | internet _ hfraction hfull => exact ⟨_, _, _, rfl, hfraction, .full hfull⟩
    | joined _ hfraction hending => exact ⟨_, _, _, rfl, hfraction, hending⟩
  have hdate : Text.NoBlank t.date.chars := t.date.noBlank_chars
  have htime : Text.NoBlank (t.clock.secondChars ++ (fraction ++ ending)) :=
    t.clock.noBlank_secondChars.append (hfraction.noBlank.append hending.noBlank)
  have hdate_ne : t.date.chars ≠ [] := by simp [Date.chars]
  have htime_ne : t.clock.secondChars ++ (fraction ++ ending) ≠ [] := by
    simp [Clock.secondChars]
  refine Text.trimChars_of_ends (fun _ => ?_) fun _ => ?_
  · rw [List.head_append_of_ne_nil hdate_ne]
    exact hdate _ (List.head_mem hdate_ne)
  · rw [List.getLast_append_of_ne_nil _ (List.cons_ne_nil _ _), List.getLast_cons htime_ne]
    exact htime _ (List.getLast_mem htime_ne)

/-- Whatever form the text of a timestamp has, the timestamp is read. -/
theorem read?_of_spells (h : t.IsWrittenAs text) (hyear : 0 ≤ t.date.year ∧ t.date.year ≤ 9999)
    (hnanos : t.clock.nanos < 1000000000) : read? text = some t := by
  obtain ⟨front, cs, back, htext, hfront, hback, hcs⟩ := h
  rw [read?, htext, Text.trimChars_between hfront hback, hcs.trimChars_eq]
  exact hcs.findSome?_patterns hyear hnanos

/-- The digits that are written of a fraction denote it. -/
theorem spellsFraction_fractionChars {n : Nat} (hn : n < 1000000000) :
    SpellsFraction n (fractionChars n) := by
  have hdigits : ∀ {k m : Nat}, 0 < k → k ≤ 9 → m < tenTo k → m * tenTo (9 - k) = n →
      SpellsFraction n ('.' :: padZeros k (digitsOf m)) := by
    intro k m hk hk9 hm hvalue
    have hlength := length_padZeros_digitsOf hk hm
    refine .digits (allDigits_padZeros k m) (padZeros_ne_nil k m) (by omega) ?_
    rw [valueFrom_padZeros, hlength, hvalue]
  unfold fractionChars
  split
  · exact .absent ‹_›
  · split
    · exact hdigits (by decide) (by decide) (by show n / 1000000 < 1000; omega)
        (by show n / 1000000 * 1000000 = n; omega)
    · split
      · exact hdigits (by decide) (by decide) (by show n / 1000 < 1000000; omega)
          (by show n / 1000 * 1000 = n; omega)
      · exact hdigits (by decide) (by decide) hn (Nat.mul_one n)

theorem spells_localChars (hnanos : t.clock.nanos < 1000000000) {ending : List Char}
    (h : SpellsFullOffset t.offset ending) : t.Spells (t.localChars ++ ending) := by
  have hwritten : t.clock.written = (t.clock.second, t.clock.nanos) := if_pos hnanos
  have hchars : t.localChars ++ ending = t.date.chars ++
      'T' :: (t.clock.secondChars ++ (fractionChars t.clock.nanos ++ ending)) := by
    simp [localChars, Clock.chars_eq, Clock.secondChars, hwritten]
  rw [hchars]
  exact .internet (by simp) (spellsFraction_fractionChars hnanos) h

/-- The text with the offset in numbers is one of the forms. -/
theorem isWrittenAs_text (hnanos : t.clock.nanos < 1000000000) : t.IsWrittenAs t.text := by
  have hfull : SpellsFullOffset t.offset t.offset.chars := by
    rw [t.offset.chars_eq]
    refine .minutes ?_
    split
    case isTrue hneg => exact .minus hneg.le
    case isFalse hneg => exact .plus (not_lt.mp hneg)
  exact ⟨[], _, [], by simp [Timestamp.text], by simp, by simp, spells_localChars hnanos hfull⟩

/-- So is the one with `Z` for the offset zero. -/
theorem isWrittenAs_zuluText (hnanos : t.clock.nanos < 1000000000) : t.IsWrittenAs t.zuluText := by
  by_cases hzulu : t.offset.minutes = 0
  · have hutc : t.offset = .utc := by
      obtain ⟨date, clock, offset, hyear, hutc⟩ := t
      obtain ⟨minutes, hgt, hlt⟩ := offset
      subst hzulu
      rfl
    exact ⟨[], t.localChars ++ ['Z'], [], by simp [zuluText, hzulu], by simp, by simp,
      spells_localChars hnanos (.letter (by simp) hutc)⟩
  · have htext : t.zuluText = t.text := by rw [zuluText, if_neg hzulu, Timestamp.text]
    rw [htext]
    exact isWrittenAs_text hnanos

end Texts

end Timestamp

end LoginForest.Time

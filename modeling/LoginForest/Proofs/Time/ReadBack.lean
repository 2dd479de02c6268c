/-
  A timestamp in UTC is read back from its text (`ofJsonText?_zuluText`): every item of the
  pattern takes just the characters that were written for it, also for years of more than four
  digits, for fractions of any precision and in a leap second.
-/
import LoginForest.Attempt.Json
import LoginForest.Proofs.Number.Digits
import LoginForest.Proofs.Text

namespace LoginForest.Time

open LoginForest.Number

/-! ## Rows of digits -/

theorem digitRun?_digits {least most : Nat} {ds rest : List Char} (hds : AllDigits ds)
    (hleast : least ≤ ds.length) (hmost : ds.length ≤ most)
    (hend : ds.length = most ∨ NoDigit rest) :
    digitRun? least most (ds ++ rest) = some (ds, rest) := by
  have hrest : NoDigit (rest.take (most - ds.length)) := by
    rcases hend with hlen | hrest
    · rw [hlen, Nat.sub_self]
      exact noDigit_nil
    · cases rest with
      | nil => exact fun c h => by simp at h
      | cons d rest =>
        cases most - ds.length with
        | zero => exact noDigit_nil
        | succ k => exact noDigit_cons (hrest d rfl)
  have htake : ((ds ++ rest).take most).takeWhile Char.isDigit = ds := by
    rw [List.take_append, List.take_of_length_le hmost]
    exact takeWhile_digits hds hrest
  unfold digitRun?
  rw [htake, if_pos hleast, List.drop_left]

theorem number?_digits {least most : Nat} {ds rest : List Char} (hds : AllDigits ds)
    (hleast : least ≤ ds.length) (hmost : ds.length ≤ most)
    (hend : ds.length = most ∨ NoDigit rest) :
    number? least most (ds ++ rest) = some (valueFrom 0 ds, rest) := by
  unfold number?
  rw [digitRun?_digits hds hleast hmost hend]
  rfl

theorem length_padZeros (width : Nat) (cs : List Char) :
    (padZeros width cs).length = max width cs.length := by
  unfold padZeros
  rw [List.length_append, zeros, List.length_replicate]
  omega

theorem length_padZeros_digitsOf {n k : Nat} (hk : 0 < k) (h : n < tenTo k) :
    (padZeros k (digitsOf n)).length = k := by
  have := length_digitsOf_le hk h
  rw [length_padZeros]
  omega

/-- A character that is no blank is not trimmed. -/
theorem trimFront_cons {c : Char} (h : Text.isBlank c = false) (cs : List Char) :
    Text.trimFront (c :: cs) = c :: cs :=
  List.dropWhile_cons_of_neg (by simp [h])

theorem isBlank_of_isDigit {c : Char} (h : c.isDigit) : Text.isBlank c = false :=
  Text.isBlank_of_isAlphanum (by rw [Char.isAlphanum, h, Bool.or_true])

theorem trimFront_digits {ds : List Char} (hds : AllDigits ds) (hne : ds ≠ [])
    (rest : List Char) : Text.trimFront (ds ++ rest) = ds ++ rest := by
  obtain ⟨d, ds, rfl⟩ := List.exists_cons_of_ne_nil hne
  exact trimFront_cons (isBlank_of_isDigit (hds d List.mem_cons_self)) _

/-! ## Items -/

theorem padZeros_ne_nil (width n : Nat) : padZeros width (digitsOf n) ≠ [] := by
  rw [← List.length_pos_iff, length_padZeros]
  have := length_digitsOf_pos n
  omega

/-- A signed year is read to the end of its digits. -/
theorem number?_signed {n : Nat} {rest : List Char} (hrest : NoDigit rest) :
    number? 1 (padZeros 4 (digitsOf n) ++ rest).length (padZeros 4 (digitsOf n) ++ rest) =
      some (n, rest) := by
  have hlength := length_padZeros 4 (digitsOf n)
  rw [number?_digits (allDigits_padZeros 4 n) (by omega) (by rw [List.length_append]; omega)
    (.inr hrest), valueFrom_padZeros]

theorem year?_of_isDigit {d : Char} (hd : d.isDigit) (cs : List Char) :
    year? (d :: cs) = (number? 1 4 (d :: cs)).map fun (n, rest) => ((n : Int), rest) := by
  unfold year?
  rw [trimFront_cons (isBlank_of_isDigit hd)]
  split
  case h_1 heq =>
    obtain ⟨rfl, -⟩ := List.cons.inj heq
    cases hd
  case h_2 heq =>
    obtain ⟨rfl, -⟩ := List.cons.inj heq
    cases hd
  case h_3 => rfl

theorem year?_yearChars (y : Int) {rest : List Char} (hrest : NoDigit rest) :
    year? (yearChars y ++ rest) = some (y, rest) := by
  unfold yearChars
  by_cases hy : 0 ≤ y ∧ y ≤ 9999
  · rw [if_pos hy]
    have hall := allDigits_padZeros 4 y.toNat
    have hlength : (padZeros 4 (digitsOf y.toNat)).length = 4 :=
      length_padZeros_digitsOf (by decide) (by show y.toNat < 10000; omega)
    have hread : number? 1 4 (padZeros 4 (digitsOf y.toNat) ++ rest) = some (_, rest) :=
      number?_digits hall (by omega) (by omega) (.inl hlength)
    have hvalue : (y.toNat : Int) = y := by omega
    obtain ⟨d, ds, hds⟩ := List.exists_cons_of_ne_nil (padZeros_ne_nil 4 y.toNat)
    have hd : d.isDigit := hall d (by rw [hds]; exact List.mem_cons_self)
    rw [valueFrom_padZeros, hds, List.cons_append] at hread
    rw [hds, List.cons_append, year?_of_isDigit hd, hread]
    exact congrArg (fun z => some (z, rest)) hvalue
  · have hsigned := number?_signed (n := y.natAbs) hrest
    rw [if_neg hy]
    by_cases hneg : y < 0
    · have hvalue : -(y.natAbs : Int) = y := by omega
      rw [if_pos hneg, List.cons_append]
      unfold year?
      rw [trimFront_cons (by decide)]
      show Option.map _ (number? 1 _ (padZeros 4 (digitsOf y.natAbs) ++ rest)) = _
      rw [hsigned]
      exact congrArg (fun z => some (z, rest)) hvalue
    · have hvalue : (y.natAbs : Int) = y := by omega
      rw [if_neg hneg, List.cons_append]
      unfold year?
      rw [trimFront_cons (by decide)]
      show Option.map _ (number? 1 _ (padZeros 4 (digitsOf y.natAbs) ++ rest)) = _
      rw [hsigned]
      exact congrArg (fun z => some (z, rest)) hvalue

section Items

variable {rest : List Char}

theorem read?_year (r : Reading) (y : Int) (hrest : NoDigit rest) :
    (Item.year false).read? r (yearChars y ++ rest) = some ({ r with year := y }, rest) := by
  unfold Item.read?
  rw [year?_yearChars y hrest]
  rfl

theorem number?_pairChars {least n : Nat} (hleast : least ≤ 2) (hn : n < 100) :
    number? least 2 (pairChars n ++ rest) = some (n, rest) := by
  have hlength : (pairChars n).length = 2 := length_padZeros_digitsOf (by decide) hn
  have hall : AllDigits (pairChars n) := allDigits_padZeros 2 n
  rw [number?_digits hall (by omega) (by omega) (.inl hlength)]
  unfold pairChars
  rw [valueFrom_padZeros]

theorem read?_field (f : Field) (r : Reading) {n : Nat} (hn : n < 100) :
    (Item.field f false).read? r (pairChars n ++ rest) = some (f.set n r, rest) := by
  have hall : AllDigits (pairChars n) := allDigits_padZeros 2 n
  rw [Item.read?, trimFront_digits hall (padZeros_ne_nil 2 n),
    number?_pairChars (by decide) hn]
  rfl

theorem read?_blanks (r : Reading) {c : Char} (h : Text.isBlank c = false) :
    Item.blanks.read? r (c :: rest) = some (r, c :: rest) := by
  unfold Item.read?
  rw [trimFront_cons h]

theorem read?_mark (r : Reading) (c : Char) :
    (Item.mark c).read? r (c :: rest) = some (r, rest) := if_pos rfl

theorem read?_separator (r : Reading) :
    (Item.oneOf ['t', 'T', ' ']).read? r ('T' :: rest) = some (r, rest) := by
  unfold Item.read?
  exact if_pos rfl

theorem read?_zulu (r : Reading) :
    (Item.zone .relaxed).read? r ['Z'] = some ({ r with offset := 0 }, []) := rfl

/-- The digits of a fraction, as many as are written, denote its nanoseconds. -/
theorem read?_digits {ds : List Char} (r : Reading) (hds : AllDigits ds) (hne : ds ≠ [])
    (hlength : ds.length ≤ 9) (hrest : NoDigit rest) :
    Item.fraction.read? r ('.' :: (ds ++ rest)) =
      some ({ r with nanos := valueFrom 0 ds * tenTo (9 - ds.length) }, rest) := by
  have hdrop : rest.dropWhile Char.isDigit = rest := by
    cases rest with
    | nil => rfl
    | cons c rest => exact List.dropWhile_cons_of_neg (by simp [hrest c rfl])
  rw [Item.read?, fraction?, digitRun?_digits hds (List.length_pos_iff.mpr hne) hlength
    (.inr hrest)]
  simp only [Option.map_some, hdrop]

theorem read?_digits_fraction (r : Reading) (unit : Nat) {n k : Nat} (hk : 0 < k) (hk9 : k ≤ 9)
    (hn : n < tenTo k) (hunit : tenTo (9 - k) = unit) (hrest : NoDigit rest) :
    Item.fraction.read? r ('.' :: (padZeros k (digitsOf n) ++ rest)) =
      some ({ r with nanos := n * unit }, rest) := by
  have hlength := length_padZeros_digitsOf hk hn
  rw [read?_digits r (allDigits_padZeros k n) (padZeros_ne_nil k n) (by omega) hrest,
    valueFrom_padZeros, hlength, hunit]

theorem read?_fraction (r : Reading) (h0 : r.nanos = 0) {n : Nat} (hn : n < 1000000000) {c : Char}
    (hc : c.isDigit = false) (hpoint : c ≠ '.') :
    Item.fraction.read? r (fractionChars n ++ c :: rest) =
      some ({ r with nanos := n }, c :: rest) := by
  have hrest : NoDigit (c :: rest) := noDigit_cons hc
  unfold fractionChars
  by_cases hzero : n = 0
  · rw [if_pos hzero, hzero, ← h0, List.nil_append, Item.read?]
    intro rest' h
    exact hpoint (List.cons.inj h).1
  · rw [if_neg hzero]
    by_cases hmilli : n % 1000000 = 0
    · rw [if_pos hmilli, List.cons_append, read?_digits_fraction r 1000000 (by decide) (by decide)
        (by show n / 1000000 < 1000; omega) (by decide) hrest]
      congr 3
      omega
    · rw [if_neg hmilli]
      by_cases hmicro : n % 1000 = 0
      · rw [if_pos hmicro, List.cons_append, read?_digits_fraction r 1000 (by decide) (by decide)
          (by show n / 1000 < 1000000; omega) (by decide) hrest]
        congr 3
        omega
      · rw [if_neg hmicro, List.cons_append, read?_digits_fraction r 1 (by decide) (by decide)
          (by show n < 1000000000; omega) (by decide) hrest]
        congr 3
        omega

end Items

/-! ## Texts -/

/-- The second and the nanoseconds as they are written. -/
def Clock.written (c : Clock) : Nat × Nat :=
  if c.nanos < 1000000000 then (c.second, c.nanos) else (c.second + 1, c.nanos - 1000000000)

theorem Clock.of?_written (c : Clock) :
    Clock.of? c.hour c.minute c.written.1 c.written.2 = some c := by
  obtain ⟨hour, minute, second, nanos, hh, hm, hs, hn, hleap⟩ := c
  unfold Clock.written
  by_cases h : nanos < 1000000000
  · rw [if_pos h, Clock.of?, dif_pos ⟨hh, hm, h⟩, dif_pos hs]
  · obtain rfl : second = 59 := hleap.resolve_left h
    rw [if_neg h, Clock.of?, dif_pos ⟨hh, hm, by dsimp only; omega⟩, dif_neg (Nat.lt_irrefl 60),
      if_pos rfl]
    congr 2
    dsimp only
    omega

theorem Clock.written_lt (c : Clock) : c.written.1 < 100 ∧ c.written.2 < 1000000000 := by
  have := c.second_lt
  have := c.nanos_lt
  unfold Clock.written
  split <;> dsimp only <;> omega

theorem Clock.chars_eq (c : Clock) : c.chars =
    pairChars c.hour ++ ':' :: pairChars c.minute ++ ':' :: pairChars c.written.1 ++
      fractionChars c.written.2 := rfl

/-- The numbers of a timestamp, without its offset. -/
def Timestamp.written (t : Timestamp) : Reading where
  year := t.date.year
  month := t.date.month
  day := t.date.day
  hour := t.clock.hour
  minute := t.clock.minute
  second := t.clock.written.1
  nanos := t.clock.written.2

/-- A timestamp is the one with its numbers and its offset. -/
theorem Timestamp.timestamp?_written (t : Timestamp) :
    { t.written with offset := t.offset.minutes }.timestamp? = some t := by
  obtain ⟨date, clock, offset, hyear, hutc⟩ := t
  have hdate : Date.of? date.year date.month date.day = some date :=
    dif_pos ⟨date.month_pos, date.month_le, date.day_pos, date.day_le⟩
  have hoffset : Offset.of? offset.minutes = some offset := dif_pos ⟨offset.gt, offset.lt⟩
  simp only [Reading.timestamp?, Timestamp.written, hdate, Clock.of?_written, hoffset]
  exact dif_pos ⟨hyear, hutc⟩

theorem readItems?_cons {item : Item} {r r' : Reading} {cs cs' : List Char}
    (h : item.read? r cs = some (r', cs')) (items : List Item) :
    readItems? (item :: items) r cs = readItems? items r' cs' := by
  rw [readItems?, h]
  rfl

theorem Date.day_lt (d : Date) : d.day < 100 := by
  have := d.day_le
  have : daysInMonth d.year d.month ≤ 31 := by
    unfold daysInMonth
    split <;> try split
    all_goals omega
  omega

/-- The characters of a timestamp in a row. -/
theorem Timestamp.localChars_append (t : Timestamp) (ending : List Char) : t.localChars ++ ending =
    yearChars t.date.year ++ '-' :: (pairChars t.date.month ++ '-' :: (pairChars t.date.day ++
      'T' :: (pairChars t.clock.hour ++ ':' :: (pairChars t.clock.minute ++ ':' ::
      (pairChars t.clock.written.1 ++ (fractionChars t.clock.written.2 ++ ending)))))) := by
  simp [localChars, Date.chars, Clock.chars_eq]

/-- The pattern takes all of a text in UTC. -/
theorem Timestamp.readItems?_localChars (t : Timestamp) :
    readItems? relaxedPattern {} (t.localChars ++ ['Z']) = some (t.written, []) := by
  have hmonth : t.date.month < 100 := by have := t.date.month_le; omega
  have hhour : t.clock.hour < 100 := by have := t.clock.hour_lt; omega
  have hminute : t.clock.minute < 100 := by have := t.clock.minute_lt; omega
  obtain ⟨hsecond, hnanos⟩ := t.clock.written_lt
  have hdash : Text.isBlank '-' = false := by decide
  have hcolon : Text.isBlank ':' = false := by decide
  rw [t.localChars_append, relaxedPattern, readItems?_cons (read?_year _ _ (noDigit_cons (by decide))),
    readItems?_cons (read?_blanks _ hdash), readItems?_cons (read?_mark _ _),
    readItems?_cons (read?_field _ _ hmonth), readItems?_cons (read?_blanks _ hdash),
    readItems?_cons (read?_mark _ _), readItems?_cons (read?_field _ _ t.date.day_lt),
    readItems?_cons (read?_separator _), readItems?_cons (read?_field _ _ hhour),
    readItems?_cons (read?_blanks _ hcolon), readItems?_cons (read?_mark _ _),
    readItems?_cons (read?_field _ _ hminute), readItems?_cons (read?_blanks _ hcolon),
    readItems?_cons (read?_mark _ _), readItems?_cons (read?_field _ _ hsecond),
    readItems?_cons (read?_fraction _ rfl hnanos (by decide) (by decide)),
    readItems?_cons (read?_blanks _ (by decide)), readItems?_cons (read?_zulu _)]
  rfl

/-- A timestamp in UTC is read back from its text. -/
theorem Timestamp.ofJsonText?_zuluText {t : Timestamp} (h : t.offset = .utc) :
    ofJsonText? t.zuluText = some t := by
  have hzulu : t.offset.minutes = 0 := by rw [h]; rfl
  rw [ofJsonText?, zuluText, if_pos hzulu, String.toList_ofList, readAll?,
    readItems?_localChars]
  have hread := t.timestamp?_written
  rw [hzulu] at hread
  exact hread

/-- A timestamp that is in UTC stays as it is. -/
theorem Timestamp.toUtc_of_utc {t : Timestamp} (h : t.offset = .utc) : t.toUtc = t := by
  obtain ⟨date, clock, offset, hyear, hutc⟩ := t
  obtain ⟨hour, minute, second, nanos, hh, hm, hs, hn, hleap⟩ := clock
  subst h
  have hminutes : Clock.utcMinutes ⟨hour, minute, second, nanos, hh, hm, hs, hn, hleap⟩ .utc =
      ((hour * 60 + minute : Nat) : Int) := by
    simp [Clock.utcMinutes, Offset.utc]
  have hdate : date.carried ((hour * 60 + minute : Nat) : Int) = date :=
    date.carried_of_sameDay (by omega) (by omega)
  have hhour : ((((hour * 60 + minute : Nat) : Int) % 1440).toNat) / 60 = hour := by omega
  have hminute : ((((hour * 60 + minute : Nat) : Int) % 1440).toNat) % 60 = minute := by omega
  simp only [toUtc, utcDate, utcMinutes, hminutes, hdate, hhour, hminute]

end LoginForest.Time

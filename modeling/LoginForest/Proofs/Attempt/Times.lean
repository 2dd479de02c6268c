/-
  The times of attempts that are loaded. Each local time of the years that four digits tell is one
  of a timestamp (`exists_timestamp`), which is read from every text that it may be written as. So
  rows that differ in the form of such a text alone are the same attempts (`spellings_agree`).
-/
import LoginForest.Proofs.Encoding
import LoginForest.Proofs.Time.Spelling

namespace LoginForest

open Number (ofNat)
open Time

namespace Time

/-! ## Local times -/

theorem Date.year_carried (d : Date) (minutes : Int) :
    d.year - 1 ≤ (d.carried minutes).year ∧ (d.carried minutes).year ≤ d.year + 1 := by
  unfold carried previous next
  split
  · split
    · dsimp only
      omega
    · split <;> dsimp only <;> omega
  · split
    · omega
    · split
      · dsimp only
        omega
      · split <;> dsimp only <;> omega

/-- Every local time of the years that four digits tell is one of a timestamp. -/
theorem exists_timestamp {d : Date} (c : Clock) (o : Offset)
    (hyear : 0 ≤ d.year ∧ d.year ≤ 9999) :
    ∃ t : Timestamp, t.date = d ∧ t.clock = c ∧ t.offset = o := by
  have hrange : ∀ y : Int, -1 ≤ y → y ≤ 10000 → yearInRange y := by
    intro y hlow hhigh
    rw [yearInRange, Bool.and_eq_true, decide_eq_true_eq, decide_eq_true_eq]
    omega
  obtain ⟨hlow, hhigh⟩ := d.year_carried (c.utcMinutes o)
  exact ⟨⟨d, c, o, hrange _ (by omega) (by omega), hrange _ (by omega) (by omega)⟩, rfl, rfl, rfl⟩

end Time

/-! ## Rows -/

/-- The row with this text for its time. -/
def Row.withTime (r : Row) (text : String) : Row := { r with time := some text }

section Rows

variable {r : Row} {text text' : String} {t : Timestamp}

theorem Row.readTime_of_read? (h : Timestamp.read? text = some t) :
    readTime (some text) = (t, []) := by
  rw [readTime, h]

theorem Row.interpret_withTime_congr (h : Timestamp.read? text = some t)
    (h' : Timestamp.read? text' = some t) (index : Nat) :
    (r.withTime text).interpret index = (r.withTime text').interpret index := by
  simp only [interpret, withTime, readTime_of_read? h, readTime_of_read? h']

theorem interpretRows_withTime_congr (h : Timestamp.read? text = some t)
    (h' : Timestamp.read? text' = some t) (before after : List Row) :
    interpretRows (before ++ r.withTime text :: after) =
      interpretRows (before ++ r.withTime text' :: after) := by
  simp only [interpretRows, List.mapIdx_append, List.mapIdx_cons,
    Row.interpret_withTime_congr h h']

theorem Row.time_interpret (h : Timestamp.read? text = some t) (index : Nat) :
    ((r.withTime text).interpret index).1.time = t :=
  congrArg Prod.fst (readTime_of_read? h)

end Rows

/-- Every local time with a year of four digits, up to nine digits of a fraction and an offset of
less than a day is read from all its texts, the standard ones among them. Rows that differ only in
the form of such a text load as the same attempts, wherever they stand, and are encoded with the
hour, the weekday and the month of the local time. -/
theorem spellings_agree [Elementary] {d : Date} {c : Clock} (o : Offset)
    (hyear : 0 ≤ d.year ∧ d.year ≤ 9999) (hnanos : c.nanos < 1000000000) :
    ∃ t : Timestamp, t.date = d ∧ t.clock = c ∧ t.offset = o ∧ t.IsWrittenAs t.text ∧
      t.IsWrittenAs t.zuluText ∧ ∀ text, t.IsWrittenAs text →
        Timestamp.read? text = some t ∧
        (∀ (r : Row) (before after : List Row),
          interpretRows (before ++ r.withTime text :: after) =
            interpretRows (before ++ r.withTime t.text :: after)) ∧
        ∀ (r : Row) (index : Nat) (b : Background),
          let a := ((r.withTime text).interpret index).1
          a.time = t ∧ feature? (a.features b) "hour" = some (ofNat c.hour) ∧
            feature? (a.features b) "day_of_week" = some (ofNat d.weekday) ∧
            feature? (a.features b) "month" = some (ofNat d.month) := by
  obtain ⟨t, rfl, rfl, rfl⟩ := exists_timestamp c o hyear
  have hread : ∀ {text}, t.IsWrittenAs text → Timestamp.read? text = some t := fun htext =>
    Timestamp.read?_of_spells htext hyear hnanos
  have hstandard : t.IsWrittenAs t.text := Timestamp.isWrittenAs_text hnanos
  refine ⟨t, rfl, rfl, rfl, hstandard, Timestamp.isWrittenAs_zuluText hnanos, fun text htext =>
    ⟨hread htext, fun r => interpretRows_withTime_congr (hread htext) (hread hstandard),
      fun r index b => ?_⟩⟩
  intro a
  have htime : a.time = t := Row.time_interpret (hread htext) index
  rw [← htime]
  exact ⟨rfl, rfl, rfl, rfl⟩

/-- Half past eleven on the evening of a leap day, three and a half hours behind UTC. -/
theorem spellings_agree_leapDay :
    let d : Date := ⟨2024, 2, 29, by decide, by decide, by decide, by decide⟩
    let c : Clock := ⟨23, 30, 0, 250000000, by decide, by decide, by decide, by decide, by decide⟩
    let o : Offset := ⟨-210, by decide, by decide⟩
    (0 ≤ d.year ∧ d.year ≤ 9999) ∧ c.nanos < 1000000000 ∧ ∃ t : Timestamp,
      t.date = d ∧ t.clock = c ∧ t.offset = o ∧ t.text = "2024-02-29T23:30:00.250-03:30" ∧
      t.IsWrittenAs " 2024-02-29 23:30:00.25-03:30" ∧
      Timestamp.read? "2024-02-29T23:30:00.250-03:30" = some t ∧
      Timestamp.read? " 2024-02-29 23:30:00.25-03:30" = some t := by
  intro d c o
  have hyear : 0 ≤ d.year ∧ d.year ≤ 9999 := by decide
  have hnanos : c.nanos < 1000000000 := by decide
  obtain ⟨t, hdate, hclock, hoffset, hstandard, -, hread⟩ := spellings_agree o hyear hnanos
  have htext : t.text = "2024-02-29T23:30:00.250-03:30" := by
    rw [Timestamp.text, Timestamp.localChars, hdate, hclock, hoffset]
    decide
  have hspelled : t.Spells (t.date.chars ++ ' ' :: (t.clock.secondChars ++
      (['.', '2', '5'] ++ ['-', '0', '3', ':', '3', '0']))) := by
    refine .joined (.inr (by decide)) ?_ ?_
    · rw [hclock]
      exact .digits (by intro c hc; fin_cases hc <;> decide) (by decide) (by decide) (by decide)
    · rw [hoffset]
      have hfull : SpellsFullOffset o _ := .minutes (.minus (by decide))
      have hchars : '-' :: (pairChars (o.minutes.natAbs / 60) ++
          ':' :: pairChars (o.minutes.natAbs % 60)) = ['-', '0', '3', ':', '3', '0'] := by decide
      rw [hchars] at hfull
      exact .full hfull
  have hwritten : t.IsWrittenAs " 2024-02-29 23:30:00.25-03:30" := by
    refine ⟨[' '], _, [], ?_, List.forall_mem_singleton.mpr (by decide), by simp, hspelled⟩
    rw [hdate, hclock]
    decide
  have hstandard := (hread _ hstandard).1
  rw [htext] at hstandard
  exact ⟨hyear, hnanos, t, hdate, hclock, hoffset, htext, hwritten, hstandard,
    (hread _ hwritten).1⟩

end LoginForest

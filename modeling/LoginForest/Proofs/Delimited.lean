/-
  A table that is written is read back (`rows_write`), whatever marks stand in its fields. Behind a
  written field the reader holds just its symbols and is outside quotes, so that a delimiter ends
  the field and a line feed the row.
-/
import LoginForest.Delimited.Reader
import LoginForest.Delimited.Writer

namespace LoginForest.Delimited

/-- Marks that a reader can tell apart. -/
structure Marks.Distinct {σ : Type} [BEq σ] (m : Marks σ) : Prop where
  delimiter_ne_quote : (m.delimiter == m.quote) = false
  endsRow_delimiter : m.endsRow m.delimiter = false
  endsRow_quote : m.endsRow m.quote = false

theorem distinct_comma : (byteMarks 44).Distinct := by constructor <;> decide

theorem distinct_tab : (byteMarks 9).Distinct := by constructor <;> decide

section Tables

variable {σ : Type} [BEq σ] {m : Marks σ}

/-! ## Symbols -/

theorem foldl_bare {field : List σ} (h : field.any (isMark m) = false) (s : Scan σ)
    (hs : s.mode = .bare) :
    field.foldl (Scan.step m) s = { s with field := field.reverse ++ s.field } := by
  induction field generalizing s with
  | nil => rfl
  | cons c field ih =>
    rw [List.any_cons, Bool.or_eq_false_iff] at h
    obtain ⟨hc, htail⟩ := h
    simp only [isMark, Bool.or_eq_false_iff] at hc
    have hstep : s.step m c = s.push .bare c := by
      simp [Scan.step, hs, Scan.bareStep, hc]
    rw [List.foldl_cons, hstep, ih htail _ rfl]
    simp [Scan.push, hs]

theorem foldl_doubled (field : List σ) (s : Scan σ) (hs : s.mode = .quoted) :
    (field.flatMap fun c => if c == m.quote then [c, c] else [c]).foldl (Scan.step m) s =
      { s with field := field.reverse ++ s.field } := by
  induction field generalizing s with
  | nil => rfl
  | cons c field ih =>
    rw [List.flatMap_cons, List.foldl_append]
    have hsymbol : (if c == m.quote then [c, c] else [c]).foldl (Scan.step m) s =
        s.push .quoted c := by
      by_cases hc : (c == m.quote) = true
      · simp [hc, Scan.step, hs, Scan.push]
      · simp [hc, Scan.step, hs]
    rw [hsymbol, ih _ rfl]
    simp [Scan.push, hs]

variable [LawfulBEq σ]

theorem endsRow_lineFeed : m.endsRow m.lineFeed = true := by simp [Marks.endsRow]

theorem step_delimiter (hm : m.Distinct) {s : Scan σ} (h : s.mode ≠ .quoted) :
    s.step m m.delimiter = s.endField := by
  have hbare : s.bareStep m m.delimiter = s.endField := by simp [Scan.bareStep]
  have hfield : s.fieldStep m m.delimiter = s.endField := by
    simp [Scan.fieldStep, hm.delimiter_ne_quote, hbare]
  cases hmode : s.mode with
  | rowStart => simp [Scan.step, hmode, hm.endsRow_delimiter, hfield]
  | fieldStart => simp [Scan.step, hmode, hfield]
  | bare => simp [Scan.step, hmode, hbare]
  | quoted => exact absurd hmode h
  | quoteSeen => simp [Scan.step, hmode, hm.delimiter_ne_quote, hbare]

theorem step_lineFeed (hm : m.Distinct) {s : Scan σ} (h : s.mode ≠ .quoted)
    (h' : s.mode ≠ .rowStart) : s.step m m.lineFeed = s.endRow := by
  have hdelimiter : (m.lineFeed == m.delimiter) = false := by
    rw [beq_eq_false_iff_ne]
    intro heq
    have := hm.endsRow_delimiter
    rw [← heq, endsRow_lineFeed] at this
    cases this
  have hquote : (m.lineFeed == m.quote) = false := by
    rw [beq_eq_false_iff_ne]
    intro heq
    have := hm.endsRow_quote
    rw [← heq, endsRow_lineFeed] at this
    cases this
  have hbare : s.bareStep m m.lineFeed = s.endRow := by
    simp [Scan.bareStep, hdelimiter, endsRow_lineFeed]
  cases hmode : s.mode with
  | rowStart => exact absurd hmode h'
  | fieldStart => simp [Scan.step, hmode, Scan.fieldStep, hquote, hbare]
  | bare => simp [Scan.step, hmode, hbare]
  | quoted => exact absurd hmode h
  | quoteSeen => simp [Scan.step, hmode, hquote, hbare]

/-! ## Fields -/

/-- Behind a written field the reader holds the field. It is at the start of a row only if it was
there before and the field is empty. -/
theorem foldl_writeField (hm : m.Distinct) (field : List σ) {s : Scan σ}
    (hs : s.mode = .rowStart ∨ s.mode = .fieldStart) (hfield : s.field = []) :
    ∃ mode, (writeField m field).foldl (Scan.step m) s = { s with mode, field := field.reverse } ∧
      mode ≠ .quoted ∧ (mode = .rowStart → s.mode = .rowStart ∧ field = []) := by
  unfold writeField
  split
  case isTrue =>
    have hopen : s.step m m.quote = { s with mode := .quoted } := by
      rcases hs with hs | hs <;> simp [Scan.step, hs, hm.endsRow_quote, Scan.fieldStep]
    refine ⟨.quoteSeen, ?_, by simp, by simp⟩
    rw [quotedField, List.cons_append, List.foldl_cons, hopen, List.foldl_append,
      foldl_doubled _ _ rfl]
    simp [Scan.step, hfield]
  case isFalse hmarks =>
    rw [Bool.not_eq_true] at hmarks
    cases field with
    | nil =>
      refine ⟨s.mode, ?_, by rcases hs with hs | hs <;> simp [hs], fun h => ⟨h, rfl⟩⟩
      show s = { s with field := [] }
      rw [← hfield]
    | cons c field =>
      have hmarks' := hmarks
      rw [List.any_cons, Bool.or_eq_false_iff] at hmarks'
      obtain ⟨hc, htail⟩ := hmarks'
      simp only [isMark, Bool.or_eq_false_iff] at hc
      have hstep : s.step m c = s.push .bare c := by
        rcases hs with hs | hs <;>
          simp [Scan.step, hs, Scan.fieldStep, Scan.bareStep, hc]
      refine ⟨.bare, ?_, by simp, by simp⟩
      rw [List.foldl_cons, hstep, foldl_bare htail _ rfl]
      simp [Scan.push, hfield]

/-! ## Rows -/

theorem foldl_writeFields (hm : m.Distinct) {fields : List (List σ)} (hne : fields ≠ [])
    {s : Scan σ} (hs : s.mode = .rowStart ∨ s.mode = .fieldStart) (hfield : s.field = [])
    (hrow : s.mode = .rowStart → fields ≠ [[]]) :
    (writeFields m fields ++ [m.lineFeed]).foldl (Scan.step m) s =
      ⟨.rowStart, [], [], (s.fields.reverse ++ fields) :: s.rows⟩ := by
  induction fields generalizing s with
  | nil => exact absurd rfl hne
  | cons field rest ih =>
    obtain ⟨mode, hread, hquoted, hstart⟩ := foldl_writeField hm field hs hfield
    cases rest with
    | nil =>
      have hmode : mode ≠ .rowStart := by
        intro hmode
        obtain ⟨hmode', rfl⟩ := hstart hmode
        exact hrow hmode' rfl
      rw [writeFields, List.foldl_append, hread, List.foldl_cons, List.foldl_nil,
        step_lineFeed hm hquoted hmode]
      simp [Scan.endRow]
    | cons field' rest =>
      rw [writeFields, List.append_assoc, List.cons_append, List.foldl_append, hread,
        List.foldl_cons, step_delimiter hm hquoted,
        ih (List.cons_ne_nil _ _) (.inr rfl) rfl (by intro h; cases h)]
      · simp [Scan.endField]
      · simp

theorem foldl_writeRow (hm : m.Distinct) {row : List (List σ)} (hne : row ≠ [])
    (done : List (List (List σ))) : (writeRow m row).foldl (Scan.step m) ⟨.rowStart, [], [], done⟩ =
      ⟨.rowStart, [], [], row :: done⟩ := by
  unfold writeRow
  split
  case isTrue hempty =>
    -- a pair of quotes stands for the only field
    obtain rfl : row = [[]] := by
      obtain ⟨field, rest, rfl⟩ := List.exists_cons_of_ne_nil hne
      simp_all
    have hseen : [m.quote, m.quote].foldl (Scan.step m) ⟨.rowStart, [], [], done⟩ =
        ⟨.quoteSeen, [], [], done⟩ := by
      simp [Scan.step, hm.endsRow_quote, Scan.fieldStep]
    rw [List.foldl_append, hseen, List.foldl_cons, List.foldl_nil,
      step_lineFeed hm (by simp) (by simp)]
    rfl
  case isFalse hempty =>
    rw [foldl_writeFields hm hne (.inl rfl) rfl]
    · rfl
    · rintro - rfl
      exact hempty rfl

/-- A table of rows with a field at least is read back from what is written of it. -/
theorem rows_write (hm : m.Distinct) {table : List (List (List σ))} (hne : ∀ row ∈ table, row ≠ []) :
    rows m (write m table) = table := by
  have hfold : ∀ done, (write m table).foldl (Scan.step m) ⟨.rowStart, [], [], done⟩ =
      ⟨.rowStart, [], [], table.reverse ++ done⟩ := by
    unfold write
    induction table with
    | nil => intro done; rfl
    | cons row table ih =>
      intro done
      rw [List.flatMap_cons, List.foldl_append, foldl_writeRow hm (hne row List.mem_cons_self),
        ih fun r hr => hne r (List.mem_cons_of_mem row hr)]
      simp
  unfold rows Scan.start
  rw [hfold, Scan.finish]
  simp

end Tables

/-- A row of one empty field is not lost. -/
example : rows (byteMarks 44) (write (byteMarks 44) [[[]], [[34], [], [10, 44]]]) =
    [[[]], [[34], [], [10, 44]]] := by decide

end LoginForest.Delimited

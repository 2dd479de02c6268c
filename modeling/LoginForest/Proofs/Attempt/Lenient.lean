/-
  What the lenient mode skips. The lines of an export of JSON records are the parts between its
  line feeds (`lines_eq_splitOn`). A line of UTF-8 that writes no record is passed over, be it blank
  (`recordRow?_of_blank`), broken or another value; a line that is not UTF-8 fails the whole
  export, though a row of a table that is not UTF-8 is passed over as well. So the load succeeds
  exactly when all lines are UTF-8 (`load_jsonLines_lenient`).
-/
import LoginForest.Attempt.Load
import LoginForest.Proofs.Number.Plain
import LoginForest.Proofs.Scoring.Run

namespace LoginForest

namespace Json

theorem start_of_blank {c : Char} (h : Text.isBlank c) (ts : List Token) :
    Lexing.start ts c = if isSpace c then some ⟨ts, .between⟩ else none := by
  have hmark : ∀ d : Char, Text.isBlank d = false → (c == d) = false := by
    intro d hd
    rw [beq_eq_false_iff_ne]
    rintro rfl
    rw [h] at hd
    cases hd
  have hword : isWordChar c = false := by
    rw [Bool.eq_false_iff]
    intro hc
    rw [LoginForest.Number.isBlank_of_isWordChar hc] at h
    cases h
  simp only [Lexing.start, hword, hmark '[' (by decide), hmark ']' (by decide),
    hmark '\x7b' (by decide), hmark '\x7d' (by decide), hmark ',' (by decide),
    hmark ':' (by decide), hmark '"' (by decide), Bool.false_eq_true, if_false]

/-- Blanks write no token. -/
theorem tokens?_of_blank {cs : List Char} (h : ∀ c ∈ cs, Text.isBlank c) :
    tokens? cs = some [] ∨ tokens? cs = none := by
  unfold tokens?
  induction cs with
  | nil => exact .inl rfl
  | cons c cs ih =>
    have hstep : Lexing.step ⟨[], .between⟩ c =
        if isSpace c then some ⟨[], .between⟩ else none :=
      start_of_blank (h c List.mem_cons_self) []
    rw [List.foldlM_cons, hstep]
    split
    · exact ih fun d hd => h d (List.mem_cons_of_mem c hd)
    · exact .inr rfl

theorem parse?_of_blank {s : String} (h : ∀ c ∈ s.toList, Text.isBlank c) : parse? s = none := by
  unfold parse?
  rcases tokens?_of_blank h with hs | hs
  · rw [hs]
    rfl
  · rw [hs]
    rfl

end Json

namespace Load

/-! ## Lines -/

theorem foldl_splitStep (line : Bytes) (done : List Bytes) (content : Bytes) :
    (content.foldl splitStep (line :: done)).reverse.map List.reverse =
      done.reverse.map List.reverse ++ content.splitOnPPrepend (· == 10) line := by
  induction content generalizing line done with
  | nil => simp
  | cons b content ih =>
    rw [List.foldl_cons, List.splitOnPPrepend_cons_eq_if, splitStep]
    by_cases hb : b = 10
    · rw [if_pos hb, if_pos (beq_iff_eq.mpr hb), ih]
      simp
    · rw [if_neg hb, if_neg (mt beq_iff_eq.mp hb), ih]

/-- The lines are the parts between line feeds. -/
theorem lines_eq_splitOn (content : Bytes) : lines content = content.splitOn (10 : UInt8) :=
  foldl_splitStep [] [] content

/-! ## Rows -/

/-- The row of a line that writes a record in UTF-8. -/
def recordRow? (line : Bytes) : Option Row := do
  let s ← line.text?
  let node ← Json.parse? s
  Row.ofValue? (← node.toValue? Json.depthLimit)

theorem recordRow?_of_blank {line : Bytes} {s : String} (hs : line.text? = some s)
    (h : Text.trimChars s.toList = []) : recordRow? line = none := by
  rw [recordRow?, hs, Option.bind_eq_bind, Option.bind_some,
    Json.parse?_of_blank (Text.trimChars_eq_nil_iff.mp h)]
  rfl

/-- A line of UTF-8 gives the row that it writes, or none. -/
theorem readLine_lenient {line : Bytes} (h : line.text?.isSome) (number : Nat) :
    readLine .lenient number line = .ok (recordRow? line) := by
  obtain ⟨s, hs⟩ := Option.isSome_iff_exists.mp h
  unfold readLine
  rw [hs]
  dsimp only
  by_cases hblank : Text.trimChars s.toList = []
  · rw [if_pos hblank, recordRow?_of_blank hs hblank]
  · rw [if_neg hblank, recordRow?, hs, lineRow]
    simp only [Option.bind_eq_bind, Option.bind_some, ← Option.bind_assoc]
    cases hv : (Json.parse? s).bind (Json.Node.toValue? Json.depthLimit) with
    | none => rfl
    | some v =>
      rw [Option.bind_some]
      dsimp only
      cases Row.ofValue? v <;> rfl

theorem readLine_of_not_text {mode : Strictness} {number : Nat} {line : Bytes}
    (h : line.text? = none) : readLine mode number line = .error .file := by
  rw [readLine, h]

/-- The lenient mode passes over lines of UTF-8 and stops at the others. -/
theorem mapM_readLine (ls : List Bytes) (first : Nat) :
    (ls.zipIdx first).mapM (fun l => readLine .lenient (l.2 + 1) l.1) =
      if ∀ line ∈ ls, line.text?.isSome then .ok (ls.map recordRow?) else .error .file := by
  induction ls generalizing first with
  | nil =>
    rw [if_pos (List.forall_mem_nil _)]
    rfl
  | cons line ls ih =>
    rw [List.zipIdx_cons, List.mapM_cons, ih]
    cases hs : line.text? with
    | none =>
      have hbad : ¬ ∀ l ∈ line :: ls, l.text?.isSome := fun h => by
        have hline := h line List.mem_cons_self
        rw [hs] at hline
        cases hline
      rw [readLine_of_not_text hs, if_neg hbad]
      rfl
    | some s =>
      rw [readLine_lenient (by rw [hs]; rfl), Except.ok_bind]
      simp only [List.forall_mem_cons, hs, Option.isSome_some, true_and]
      split <;> rfl

theorem lineRows_lenient (content : Bytes) : lineRows .lenient content =
    if ∀ line ∈ content.splitOn (10 : UInt8), (Bytes.text? line).isSome then
      .ok ((content.splitOn (10 : UInt8)).filterMap recordRow?)
    else .error .file := by
  have hread := mapM_readLine (content.splitOn (10 : UInt8)) 0
  rw [← lines_eq_splitOn] at hread ⊢
  unfold lineRows
  refine (congrArg (· >>= fun rows => pure (rows.filterMap id)) hread).trans ?_
  split
  · rw [Except.ok_bind, List.filterMap_map, Function.id_comp]
    rfl
  · rfl

end Load

/-- In the lenient mode an export of JSON records is loaded exactly when all its lines are UTF-8.
Its attempts are then those of the lines that write a record, in their order. -/
theorem load_jsonLines_lenient (content : Bytes) : load .lenient .jsonLines (some content) =
    if ∀ line ∈ content.splitOn (10 : UInt8), (Bytes.text? line).isSome then
      .ok (interpretRows ((content.splitOn (10 : UInt8)).filterMap Load.recordRow?))
    else .error .file := by
  show (Load.lineRows .lenient content).map interpretRows = _
  rw [Load.lineRows_lenient]
  split <;> rfl

/-- Two records with a line between them that is not UTF-8. -/
def strayRecords : Bytes :=
  Bytes.ofText "\x7b\"id\":1\x7d\n" ++ 0xff :: Bytes.ofText "\n\x7b\"id\":3\x7d\n"

/-- Two rows with a row between them that is not UTF-8. -/
def strayTable : Bytes := Bytes.ofText "id\n1\n" ++ 0xff :: Bytes.ofText "\n3\n"

/-- One line that is not UTF-8 fails a lenient load of records, two of which can be read; a table
with such a row is loaded. -/
theorem load_strayRecords : load .lenient .jsonLines (some strayRecords) = .error .file ∧
    ((strayRecords.splitOn (10 : UInt8)).filterMap Load.recordRow?).map (·.id) =
      [some "1", some "3"] ∧
    (load .lenient .commaSeparated (some strayTable)).toOption.map (·.map (·.id)) =
      some ["1", "3"] := by
  have hbad : ¬ ∀ line ∈ strayRecords.splitOn (10 : UInt8), (Bytes.text? line).isSome := by
    decide +kernel
  refine ⟨?_, by decide +kernel, by decide +kernel⟩
  show (Load.lineRows .lenient strayRecords).map interpretRows = _
  rw [Load.lineRows_lenient, if_neg hbad]
  rfl

end LoginForest

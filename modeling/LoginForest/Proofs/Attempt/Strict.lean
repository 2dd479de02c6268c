/-
  What the strict mode refuses. Whatever it loads is loaded alike in the lenient mode, and what it
  does not load of an export of JSON records is for one line: the first that is not blank and
  writes no record (`readLine_strict`). Without such lines the two modes are one, so the lenient
  mode loads what the strict one does when they are taken out (`load_strict`). A line that writes a
  value nested too deep is refused as what is not JSON (`load_deepList`).
-/
import LoginForest.Proofs.Attempt.Formats
import LoginForest.Proofs.Json.Grammar

namespace LoginForest

/-! ## Pieces between marks -/

section Pieces

variable {α β : Type}

/-- The mark is in no piece. -/
theorem not_mem_of_mem_splitOn [BEq α] [LawfulBEq α] {mark : α} {l piece : List α}
    (h : piece ∈ l.splitOn mark) : mark ∉ piece := by
  induction l generalizing piece with
  | nil =>
    obtain rfl := List.mem_singleton.mp h
    exact List.not_mem_nil
  | cons a l ih =>
    rw [List.splitOn_cons_eq_if_modifyHead] at h
    split at h
    case isTrue =>
      rcases List.mem_cons.mp h with rfl | h
      · exact List.not_mem_nil
      · exact ih h
    case isFalse ha =>
      obtain ⟨first, rest, hsplit⟩ := List.exists_cons_of_ne_nil (List.splitOn_ne_nil mark l)
      rw [hsplit] at ih
      rw [hsplit, List.modifyHead_cons, List.mem_cons] at h
      rcases h with rfl | h
      · rintro hmem
        rcases List.mem_cons.mp hmem with rfl | hmem
        · exact ha (beq_self_eq_true _)
        · exact ih List.mem_cons_self hmem
      · exact ih (List.mem_cons_of_mem _ h)

theorem flatMap_intercalate (f : α → List β) (mark : α) (pieces : List (List α)) :
    ([mark].intercalate pieces).flatMap f =
      (f mark).intercalate (pieces.map fun piece => piece.flatMap f) := by
  induction pieces with
  | nil => rfl
  | cons piece pieces ih =>
    by_cases hne : pieces = []
    · subst hne
      rw [List.map_singleton, List.intercalate_singleton, List.intercalate_singleton]
    · rw [List.intercalate_cons_of_ne_nil hne, List.map_cons,
        List.intercalate_cons_of_ne_nil (mt List.map_eq_nil_iff.mp hne), List.flatMap_append,
        List.flatMap_append, ih, List.flatMap_singleton]

end Pieces

namespace Bytes

theorem eq_ofText {b : Bytes} {s : String} (h : text? b = some s) : b = ofText s := by
  unfold text? String.fromUTF8? at h
  split at h
  case isTrue hvalid =>
    obtain rfl := Option.some.inj h
    show b = b.toByteArray.toList
    rw [toList_eq, List.data_toByteArray]
  case isFalse => cases h

/-- The lines of a text are texts. -/
theorem splitOn_ofText (s : String) : (ofText s).splitOn (10 : UInt8) =
    (s.toList.splitOn '\n').map fun cs => ofText (String.ofList cs) := by
  have hfeed : String.utf8EncodeChar '\n' = [10] := by decide
  have hlines : ofText s = [10].intercalate
      ((s.toList.splitOn '\n').map fun cs => ofText (String.ofList cs)) := by
    simp only [ofText_ofList]
    rw [← hfeed, ← flatMap_intercalate, List.intercalate_splitOn, ← ofText_ofList,
      String.ofList_toList]
  rw [hlines]
  refine List.splitOn_intercalate 10 (fun line hline => ?_)
    (mt List.map_eq_nil_iff.mp (List.splitOn_ne_nil _ _))
  obtain ⟨cs, hcs, rfl⟩ := List.mem_map.mp hline
  refine lineFeed_not_mem_ofText ?_
  rw [String.toList_ofList]
  exact not_mem_of_mem_splitOn hcs

theorem exists_ofText_of_mem_splitOn {content line : Bytes} (h : content.text?.isSome)
    (hline : line ∈ content.splitOn (10 : UInt8)) : ∃ s, line = ofText s := by
  obtain ⟨s, hs⟩ := Option.isSome_iff_exists.mp h
  rw [eq_ofText hs, splitOn_ofText] at hline
  obtain ⟨cs, -, rfl⟩ := List.mem_map.mp hline
  exact ⟨_, rfl⟩

theorem isSome_text?_of_mem_splitOn {content line : Bytes} (h : content.text?.isSome)
    (hline : line ∈ content.splitOn (10 : UInt8)) : line.text?.isSome := by
  obtain ⟨s, rfl⟩ := exists_ofText_of_mem_splitOn h hline
  rw [text?_ofText]
  rfl

end Bytes

namespace Load

/-! ## Lines that cannot be read -/

/-- The value that a line writes, as deep as the reader goes. -/
def lineValue? (line : Bytes) : Option Json.Value := do
  let s ← line.text?
  let node ← Json.parse? s
  node.toValue? Json.depthLimit

def isBlankLine (line : Bytes) : Bool := line.text?.any fun s => s.toList.all Text.isBlank

/-- A line that is not blank and writes no record. -/
def isUnreadable (line : Bytes) : Bool := !isBlankLine line && (recordRow? line).isNone

/-- What is wrong with such a line, given with its number from one. -/
def lineFault (number : Nat) (line : Bytes) : Error :=
  if (lineValue? line).isSome then .notObject number else .malformed

/-- The other lines. -/
def readableLines (content : Bytes) : List Bytes :=
  (content.splitOn (10 : UInt8)).filter fun line => !isUnreadable line

/-- The content with the unreadable lines taken out. -/
def withoutUnreadable (content : Bytes) : Bytes := [10].intercalate (readableLines content)

theorem recordRow?_eq (line : Bytes) : recordRow? line = (lineValue? line).bind Row.ofValue? := by
  unfold recordRow? lineValue?
  simp only [Option.bind_eq_bind, Option.bind_assoc]

theorem isBlankLine_eq {line : Bytes} {s : String} (hs : line.text? = some s) :
    isBlankLine line = decide (Text.trimChars s.toList = []) := by
  rw [isBlankLine, hs, Option.any_some, Bool.eq_iff_iff, List.all_eq_true, decide_eq_true_eq,
    Text.trimChars_eq_nil_iff]

/-- In strict mode a line of UTF-8 is refused if it is unreadable. -/
theorem readLine_strict {line : Bytes} (h : line.text?.isSome) (number : Nat) :
    readLine .strict number line =
      if isUnreadable line then .error (lineFault number line) else .ok (recordRow? line) := by
  obtain ⟨s, hs⟩ := Option.isSome_iff_exists.mp h
  have hvalue : lineValue? line = (Json.parse? s).bind (Json.Node.toValue? Json.depthLimit) := by
    rw [lineValue?, hs]
    rfl
  unfold readLine isUnreadable lineFault
  rw [hs, isBlankLine_eq hs, recordRow?_eq]
  dsimp only
  by_cases hblank : Text.trimChars s.toList = []
  · rw [if_pos hblank, decide_eq_true hblank, ← recordRow?_eq, recordRow?_of_blank hs hblank]
    rfl
  · rw [if_neg hblank, decide_eq_false hblank, lineRow, ← hvalue]
    cases lineValue? line with
    | none => rfl
    | some v =>
      rw [Option.bind_some]
      dsimp only
      cases Row.ofValue? v <;> rfl

/-- Lines that can be read are read alike in both modes. -/
theorem readLine_of_readable {line : Bytes} (h : line.text?.isSome)
    (hline : isUnreadable line = false) (mode : Strictness) (number : Nat) :
    readLine mode number line = .ok (recordRow? line) := by
  cases mode with
  | lenient => exact readLine_lenient h number
  | strict => rw [readLine_strict h, hline, if_neg Bool.false_ne_true]

/-! ## Lines in order -/

theorem mapM_readLine_readable {ls : List Bytes}
    (h : ∀ line ∈ ls, line.text?.isSome ∧ isUnreadable line = false) (mode : Strictness)
    (first : Nat) :
    (ls.zipIdx first).mapM (fun l => readLine mode (l.2 + 1) l.1) = .ok (ls.map recordRow?) := by
  induction ls generalizing first with
  | nil => rfl
  | cons line ls ih =>
    obtain ⟨⟨htext, hline⟩, hrest⟩ := List.forall_mem_cons.mp h
    rw [List.zipIdx_cons, List.mapM_cons, readLine_of_readable htext hline, ih hrest,
      Except.ok_bind, Except.ok_bind]
    rfl

/-- The first unreadable line decides on the error. -/
theorem mapM_readLine_unreadable {before after : List Bytes} {line : Bytes}
    (hbefore : ∀ l ∈ before, l.text?.isSome ∧ isUnreadable l = false) (htext : line.text?.isSome)
    (hline : isUnreadable line) :
    ((before ++ line :: after).zipIdx).mapM (fun l => readLine .strict (l.2 + 1) l.1) =
      .error (lineFault (before.length + 1) line) := by
  rw [List.zipIdx_append, List.zipIdx_cons, List.mapM_append, mapM_readLine_readable hbefore,
    List.mapM_cons, readLine_strict htext, if_pos hline, Nat.zero_add]
  rfl

theorem lineRows_readable {content : Bytes}
    (h : ∀ line ∈ content.splitOn (10 : UInt8), (Bytes.text? line).isSome ∧
      isUnreadable line = false) (mode : Strictness) :
    lineRows mode content = .ok ((content.splitOn (10 : UInt8)).filterMap recordRow?) := by
  rw [← lines_eq_splitOn] at h ⊢
  unfold lineRows
  refine (congrArg (· >>= fun rows => pure (rows.filterMap id))
    (mapM_readLine_readable h mode 0)).trans ?_
  rw [Except.ok_bind, List.filterMap_map, Function.id_comp]
  rfl

theorem lineRows_unreadable {content line : Bytes} {before after : List Bytes}
    (hcontent : content.text?.isSome)
    (hlines : content.splitOn (10 : UInt8) = before ++ line :: after)
    (hbefore : ∀ l ∈ before, isUnreadable l = false) (hline : isUnreadable line) :
    lineRows .strict content = .error (lineFault (before.length + 1) line) := by
  have htext : ∀ l ∈ before ++ line :: after, (Bytes.text? l).isSome := by
    rw [← hlines]
    exact fun l hl => Bytes.isSome_text?_of_mem_splitOn hcontent hl
  obtain ⟨htextBefore, htextAfter⟩ := List.forall_mem_append.mp htext
  unfold lineRows
  rw [lines_eq_splitOn, hlines]
  exact congrArg (· >>= fun rows => pure (rows.filterMap id)) <|
    mapM_readLine_unreadable (fun l hl => ⟨htextBefore l hl, hbefore l hl⟩)
      (htextAfter line List.mem_cons_self) hline

/-! ## Without the unreadable lines -/

theorem recordRow?_of_isUnreadable {line : Bytes} (h : isUnreadable line) :
    recordRow? line = none := by
  rw [isUnreadable, Bool.and_eq_true] at h
  exact Option.isNone_iff_eq_none.mp h.2

theorem filterMap_readableLines (content : Bytes) :
    (readableLines content).filterMap recordRow? =
      (content.splitOn (10 : UInt8)).filterMap recordRow? := by
  rw [readableLines, List.filterMap_filter]
  refine List.filterMap_congr fun line _ => ?_
  cases hline : isUnreadable line with
  | false => rfl
  | true => exact (recordRow?_of_isUnreadable hline).symm

/-- The lines of what is left are those that were not taken out, or an empty one if there are
none. -/
theorem splitOn_withoutUnreadable (content : Bytes) :
    (withoutUnreadable content).splitOn (10 : UInt8) = readableLines content ∨
      readableLines content = [] ∧ (withoutUnreadable content).splitOn (10 : UInt8) = [[]] := by
  by_cases hne : readableLines content = []
  · refine .inr ⟨hne, ?_⟩
    rw [withoutUnreadable, hne]
    rfl
  · refine .inl (List.splitOn_intercalate 10 (fun line hline => ?_) hne)
    exact not_mem_of_mem_splitOn (List.mem_filter.mp hline).1

theorem lineRows_withoutUnreadable {content : Bytes} (h : content.text?.isSome)
    (mode : Strictness) : lineRows mode (withoutUnreadable content) =
      .ok ((content.splitOn (10 : UInt8)).filterMap recordRow?) := by
  have hreadable : ∀ line ∈ readableLines content, (Bytes.text? line).isSome ∧
      isUnreadable line = false := by
    intro line hline
    obtain ⟨hmem, hline⟩ := List.mem_filter.mp hline
    exact ⟨Bytes.isSome_text?_of_mem_splitOn h hmem, by simpa using hline⟩
  have hempty : (Bytes.text? []).isSome ∧ isUnreadable [] = false ∧ recordRow? [] = none := by
    decide +kernel
  rw [← filterMap_readableLines]
  rcases splitOn_withoutUnreadable content with hsplit | ⟨hnone, hsplit⟩
  · rw [lineRows_readable (by rwa [hsplit]), hsplit]
  · rw [lineRows_readable, hsplit, hnone]
    · simp [hempty.2.2]
    · rw [hsplit]
      exact List.forall_mem_singleton.mpr ⟨hempty.1, hempty.2.1⟩

/-! ## What both modes load -/

theorem readLine_lenient_of_strict {number : Nat} {line : Bytes} {row : Option Row}
    (h : readLine .strict number line = .ok row) : readLine .lenient number line = .ok row := by
  cases hs : line.text? with
  | none =>
    rw [readLine_of_not_text hs] at h
    cases h
  | some s =>
    have htext : line.text?.isSome := by
      rw [hs]
      rfl
    rw [readLine_strict htext] at h
    split at h
    · cases h
    · rwa [readLine_lenient htext]

theorem tableRows_lenient_of_strict {delimiter : UInt8} {content : Bytes} {rows : List Row}
    (h : tableRows .strict delimiter content = .ok rows) :
    tableRows .lenient delimiter content = .ok rows := by
  unfold tableRows at h ⊢
  cases hsplit : Delimited.rows (Delimited.byteMarks delimiter) (dropMark content) with
  | nil => rwa [hsplit] at h
  | cons header body =>
    rw [hsplit] at h
    dsimp only at h ⊢
    cases hheader : header.mapM Bytes.text? with
    | none =>
      rw [hheader] at h
      cases h
    | some names =>
      rw [hheader] at h
      dsimp only at h ⊢
      cases hbody : body.mapM fun fields => (fields.mapM Bytes.text?).map (tableRow names) with
      | none =>
        rw [hbody] at h
        cases h
      | some read =>
        rw [hbody] at h
        rw [List.filterMap_of_mapM hbody]
        exact h

theorem lineRows_lenient_of_strict {content : Bytes} {rows : List Row}
    (h : lineRows .strict content = .ok rows) : lineRows .lenient content = .ok rows := by
  obtain ⟨read, hread, h⟩ := Except.bind_eq_ok h
  have hlenient := List.mapM_mono (g := fun l : Bytes × Nat => readLine .lenient (l.2 + 1) l.1)
    (fun _ _ _ hrow => readLine_lenient_of_strict hrow) hread
  refine (congrArg (· >>= fun rows => pure (rows.filterMap id)) hlenient).trans ?_
  rw [Except.ok_bind]
  exact h

theorem rows_lenient_of_strict {format : Format} {content : Option Bytes} {rows : List Row}
    (h : Load.rows .strict format content = .ok rows) :
    Load.rows .lenient format content = .ok rows := by
  cases content with
  | none => cases format <;> cases h
  | some b =>
    cases format with
    | commaSeparated => exact tableRows_lenient_of_strict h
    | tabSeparated => exact tableRows_lenient_of_strict h
    | jsonLines => exact lineRows_lenient_of_strict h

/-! ## Lines that spell a value -/

/-- A line has a value just when it spells it. -/
theorem lineValue?_eq_some_iff {line : String} {v : Json.Value} :
    lineValue? (Bytes.ofText line) = some v ↔
      Json.Padded (Json.SpellsValue Json.depthLimit v) line.toList := by
  rw [← Json.reads_iff_spells, lineValue?, Bytes.text?_ofText, Option.bind_eq_bind,
    Option.bind_some, Option.bind_eq_bind, Option.bind_eq_some_iff]

theorem isSome_recordRow?_iff {line : String} : (recordRow? (Bytes.ofText line)).isSome ↔
    ∃ members, Json.Padded (Json.SpellsValue Json.depthLimit (.record members)) line.toList := by
  simp only [← lineValue?_eq_some_iff, recordRow?_eq]
  cases lineValue? (Bytes.ofText line) with
  | none => simp
  | some v => cases v <;> simp [Row.ofValue?]

/-- A line is unreadable just when it is not blank and spells no record. -/
theorem isUnreadable_iff {line : String} : isUnreadable (Bytes.ofText line) ↔
    (∃ c ∈ line.toList, ¬ Text.isBlank c) ∧
      ¬ ∃ members, Json.Padded (Json.SpellsValue Json.depthLimit (.record members))
        line.toList := by
  rw [← isSome_recordRow?_iff, isUnreadable, isBlankLine, Bytes.text?_ofText, Option.any_some,
    Bool.and_eq_true, Bool.not_eq_true', List.all_eq_false, Option.isNone_iff_eq_none,
    Option.not_isSome_iff_eq_none]

theorem lineFault_eq (number : Nat) (line : String) :
    ((∃ v, Json.Padded (Json.SpellsValue Json.depthLimit v) line.toList) →
      lineFault number (Bytes.ofText line) = .notObject number ∧
        (lineFault number (Bytes.ofText line)).message =
          "Data error: line " ++ decimalText number ++ " is not a JSON object") ∧
    ((¬ ∃ v, Json.Padded (Json.SpellsValue Json.depthLimit v) line.toList) →
      lineFault number (Bytes.ofText line) = .malformed) := by
  simp only [← lineValue?_eq_some_iff, ← Option.isSome_iff_exists]
  refine ⟨fun h => ?_, fun h => if_neg h⟩
  rw [lineFault, if_pos h]
  exact ⟨rfl, rfl⟩

end Load

/-! ## Loads -/

theorem load_lenient_of_strict {format : Format} {content : Option Bytes} {attempts : List Attempt}
    (h : load .strict format content = .ok attempts) :
    load .lenient format content = .ok attempts := by
  cases hrows : Load.rows .strict format content with
  | error e =>
    rw [load, hrows] at h
    cases h
  | ok rows =>
    rw [load, hrows] at h
    rw [load, Load.rows_lenient_of_strict hrows]
    exact h

theorem load_jsonLines (mode : Strictness) (content : Bytes) :
    load mode .jsonLines (some content) = (Load.lineRows mode content).map interpretRows := rfl

theorem load_lenient_withoutUnreadable {content : Bytes} (h : content.text?.isSome) :
    load .lenient .jsonLines (some content) =
      load .strict .jsonLines (some (Load.withoutUnreadable content)) := by
  rw [load_jsonLines, load_jsonLines, Load.lineRows_withoutUnreadable h, Load.lineRows_lenient,
    if_pos fun _ hline => Bytes.isSome_text?_of_mem_splitOn h hline]

theorem load_strict_error_iff {content : Bytes} (h : content.text?.isSome) :
    (∃ e, load .strict .jsonLines (some content) = .error e) ↔
      ∃ line ∈ content.splitOn (10 : UInt8), Load.isUnreadable line := by
  constructor
  · rintro ⟨e, he⟩
    by_contra hnone
    have hreadable : ∀ line ∈ content.splitOn (10 : UInt8), (Bytes.text? line).isSome ∧
        Load.isUnreadable line = false := fun line hline =>
      ⟨Bytes.isSome_text?_of_mem_splitOn h hline,
        Bool.eq_false_iff.mpr fun hunread => hnone ⟨line, hline, hunread⟩⟩
    rw [load_jsonLines, Load.lineRows_readable hreadable] at he
    cases he
  · rintro ⟨line, hline, hunread⟩
    obtain ⟨first, hfirst⟩ := Option.isSome_iff_exists.mp
      (List.find?_isSome.mpr ⟨line, hline, hunread⟩)
    obtain ⟨hfault, before, after, hlines, hbefore⟩ := List.find?_eq_some_iff_append.mp hfirst
    have hbefore : ∀ l ∈ before, Load.isUnreadable l = false := fun l hl => by
      simpa using hbefore l hl
    rw [load_jsonLines, Load.lineRows_unreadable h hlines hbefore hfault]
    exact ⟨_, rfl⟩

/-- What is loaded in strict mode is loaded alike in the lenient mode. The lenient mode loads of an
export of JSON records what the strict one does without the unreadable lines. An export of UTF-8
is refused in strict mode when there is such a line, and the first one decides on the error. A line
is unreadable if it is not blank and spells no record that the reader can follow; where it spells
another value, the error has its number among all lines. -/
theorem load_strict :
    (∀ (format : Format) (content : Option Bytes) (attempts : List Attempt),
      load .strict format content = .ok attempts → load .lenient format content = .ok attempts) ∧
    ∀ content : Bytes, content.text?.isSome →
      load .lenient .jsonLines (some content) =
        load .strict .jsonLines (some (Load.withoutUnreadable content)) ∧
      ((∃ e, load .strict .jsonLines (some content) = .error e) ↔
        ∃ line ∈ content.splitOn (10 : UInt8), Load.isUnreadable line) ∧
      (∀ before line after, content.splitOn (10 : UInt8) = before ++ line :: after →
        (∀ l ∈ before, Load.isUnreadable l = false) → Load.isUnreadable line →
          load .strict .jsonLines (some content) =
            .error (Load.lineFault (before.length + 1) line)) ∧
      ∀ line ∈ content.splitOn (10 : UInt8), ∃ s : String, line = Bytes.ofText s ∧
        (Load.isUnreadable line ↔ (∃ c ∈ s.toList, ¬ Text.isBlank c) ∧
          ¬ ∃ members, Json.Padded (Json.SpellsValue Json.depthLimit (.record members))
            s.toList) ∧
        ∀ number, ((∃ v, Json.Padded (Json.SpellsValue Json.depthLimit v) s.toList) →
            Load.lineFault number line = .notObject number ∧
              (Load.lineFault number line).message =
                "Data error: line " ++ decimalText number ++ " is not a JSON object") ∧
          ((¬ ∃ v, Json.Padded (Json.SpellsValue Json.depthLimit v) s.toList) →
            Load.lineFault number line = .malformed) := by
  refine ⟨fun format content attempts h => load_lenient_of_strict h,
    fun content hcontent => ⟨load_lenient_withoutUnreadable hcontent,
      load_strict_error_iff hcontent, fun before line after hlines hbefore hline => ?_,
      fun line hmem => ?_⟩⟩
  · rw [load_jsonLines, Load.lineRows_unreadable hcontent hlines hbefore hline]
    rfl
  · obtain ⟨s, rfl⟩ := Bytes.exists_ofText_of_mem_splitOn hcontent hmem
    exact ⟨s, rfl, Load.isUnreadable_iff, fun number => Load.lineFault_eq number s⟩

/-- Two records with a blank line, a list and a line that is cut off between them. -/
def mixedLines : Bytes := Bytes.ofText "\x7b\"id\":1\x7d\n \n[1, 2]\n\x7b\"id\"\n\x7b\"id\":2\x7d"

/-- The strict mode names the list, with its number among all lines. The lenient mode loads the two
records, as both modes do without the lines that write none. -/
theorem load_strict_mixedLines :
    load .strict .jsonLines (some mixedLines) = .error (.notObject 3) ∧
      (Error.notObject 3).message = "Data error: line 3 is not a JSON object" ∧
      ∃ attempts, load .lenient .jsonLines (some mixedLines) = .ok attempts ∧
        load .lenient .jsonLines (some (Load.withoutUnreadable mixedLines)) = .ok attempts ∧
        attempts.map (·.id) = ["1", "2"] := by
  have htext : (Bytes.text? mixedLines).isSome := by decide +kernel
  obtain ⟨hmono, hload⟩ := load_strict
  obtain ⟨hlenient, -, hfirst, -⟩ := hload mixedLines htext
  have hstrict : (load .strict .jsonLines (some (Load.withoutUnreadable mixedLines))).toOption.map
      (·.map (·.id)) = some ["1", "2"] := by decide +kernel
  have hfault : Load.lineFault 3 (Bytes.ofText "[1, 2]") = .notObject 3 :=
    if_pos (by decide +kernel)
  refine ⟨?_, by decide +kernel, ?_⟩
  · have hlines : mixedLines.splitOn (10 : UInt8) =
        [Bytes.ofText "\x7b\"id\":1\x7d", [32]] ++ Bytes.ofText "[1, 2]" ::
          [Bytes.ofText "\x7b\"id\"", Bytes.ofText "\x7b\"id\":2\x7d"] := by decide +kernel
    exact (hfirst _ _ _ hlines (by decide +kernel) (by decide +kernel)).trans
      (congrArg Except.error hfault)
  · cases hattempts : load .strict .jsonLines (some (Load.withoutUnreadable mixedLines)) with
    | error e =>
      rw [hattempts] at hstrict
      cases hstrict
    | ok attempts =>
      rw [hattempts] at hstrict
      exact ⟨attempts, hlenient.trans hattempts, hmono _ _ _ hattempts, Option.some.inj hstrict⟩

/-! ## Values beyond what the reader follows -/

/-- A list that is nested one deeper than the reader goes. -/
def deepList : String := (Json.nested (Json.depthLimit + 1)).compact

theorem lineFeed_not_mem_deepList : '\n' ∉ deepList.toList := by
  rw [deepList, Json.Value.compact, String.toList_ofList]
  decide +kernel

/-- A line that spells a list is refused in strict mode, but not as what is no record if the list is
nested too deep. A line that spells a record with such a list is passed over as if it were none. -/
theorem load_deepList :
    Json.SpellsValue (Json.depthLimit + 1) (Json.nested (Json.depthLimit + 1)) deepList.toList ∧
      load .strict .jsonLines (some (Load.lineBytes [deepList])) = .error .malformed ∧
      Error.malformed.message ≠ (Error.notObject 1).message ∧
      Json.SpellsValue (Json.depthLimit + 1) (.record deepMembers) deepRecord.toList ∧
      load .strict .jsonLines (some (Load.lineBytes [deepRecord])) = .error .malformed ∧
      load .lenient .jsonLines (some (Load.lineBytes [deepRecord])) = .ok [] := by
  have hlist : ∀ mode, load mode .jsonLines (some (Load.lineBytes [deepList])) =
      if mode = .lenient then .ok [] else .error .malformed := fun mode =>
    load_of_deep mode (Json.parse?_compact _) (Json.toValue?_nested _) lineFeed_not_mem_deepList
  have hrecord : ∀ mode, load mode .jsonLines (some (Load.lineBytes [deepRecord])) =
      if mode = .lenient then .ok [] else .error .malformed := fun mode =>
    load_of_deep mode (Json.parse?_compact _) toValue?_deepMembers lineFeed_not_mem_deepRecord
  have hspelled : Json.SpellsValue (Json.depthLimit + 1) (.record deepMembers) deepRecord.toList :=
    .inr (.inr ⟨deepMembers, rfl, spellsMembers_deepRecord⟩)
  refine ⟨?_, hlist .strict, by decide +kernel, hspelled, hrecord .strict, hrecord .lenient⟩
  rw [deepList, Json.Value.compact, String.toList_ofList]
  exact Json.spellsValue_nested _

end LoginForest

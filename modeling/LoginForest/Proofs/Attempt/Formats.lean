/-
  The formats load alike (`load_formats`). The same texts may be written as a table with commas, as
  a table with tabs or as JSON records, one a line with blank lines between; each is read as the
  rows of the texts, and so as the same attempts, numbers of rows included. A member that names no
  column may hold any value, as long as the reader follows it: a record with a member that is nested
  deeper than that is passed over, though its columns could be read (`load_deepRecord`).
-/
import LoginForest.Proofs.Attempt.Format
import LoginForest.Proofs.Attempt.Lenient
import LoginForest.Proofs.Attempt.Table
import LoginForest.Proofs.Json.Spelling

namespace LoginForest

namespace Load

open Json (Value Padded SpellsMembers SpellsValue setMembers)

/-! ## Records of texts -/

/-- The values of the members of one name that stand for a text, or for none. -/
inductive Gives : Option String → List Value → Prop
  | omitted : Gives none []
  | null : Gives none [.null]
  | text {s : String} : Gives (some s) [.text s]

/-- Members that give every column its text; other members are free. -/
def Represents (text : String → Option String) (members : List (String × Value)) : Prop :=
  ∀ c ∈ columnNames, Gives (text c) ((members.filter (·.1 = c)).map (·.2))

theorem Gives.bind_valueText {text : Option String} {values : List Value} (h : Gives text values) :
    values.getLast?.bind Row.valueText = text.bind Text.filled? := by
  cases h <;> rfl

/-- A record is read as the row of its texts. -/
theorem ofValue?_record {text : String → Option String} {members : List (String × Value)}
    (h : Represents text members) :
    Row.ofValue? (.record (setMembers [] members)) = some (Row.ofTexts text) := by
  refine congrArg some (Row.ofColumns_congr fun c hc => ?_)
  have hlast := (h c hc).bind_valueText
  rw [Json.lookup_setMembers, List.lookup_nil, Option.or_none, ← List.getLast?_map]
  exact hlast

/-! ## Lines of records -/

/-- The ways to write texts as lines of JSON records, with blank lines anywhere. -/
inductive SpellsLines (room : Nat) : List (String → Option String) → List String → Prop
  | nil : SpellsLines room [] []
  | blank {texts line lines} : '\n' ∉ line.toList → (∀ c ∈ line.toList, Text.isBlank c) →
    SpellsLines room texts lines → SpellsLines room texts (line :: lines)
  | record {text texts members line lines} : '\n' ∉ line.toList →
    Padded (SpellsMembers (SpellsValue room) members) line.toList → Represents text members →
    SpellsLines room texts lines → SpellsLines room (text :: texts) (line :: lines)

/-- The bytes of lines with line feeds between. -/
def lineBytes (lines : List String) : Bytes := [10].intercalate (lines.map Bytes.ofText)

theorem readLine_blank (mode : Strictness) (number : Nat) {line : String}
    (h : ∀ c ∈ line.toList, Text.isBlank c) :
    readLine mode number (Bytes.ofText line) = .ok none := by
  unfold readLine
  rw [Bytes.text?_ofText]
  dsimp only
  rw [if_pos (Text.trimChars_eq_nil_iff.mpr h)]

/-- A line that spells a record is read as the row of its texts, in strict mode or not. -/
theorem readLine_record (mode : Strictness) (number : Nat) {line : String}
    {members : List (String × Value)} {text : String → Option String} {room : Nat}
    (hroom : room + 1 = Json.depthLimit)
    (hline : Padded (SpellsMembers (SpellsValue room) members) line.toList)
    (htext : Represents text members) :
    readLine mode number (Bytes.ofText line) = .ok (some (Row.ofTexts text)) := by
  obtain ⟨n, hparse, hvalue⟩ := Json.parse?_of_spells hline
  rw [String.ofList_toList] at hparse
  rw [hroom] at hvalue
  have hvisible : Text.trimChars line.toList ≠ [] := by
    intro hnil
    rw [Json.parse?_of_blank (Text.trimChars_eq_nil_iff.mp hnil)] at hparse
    cases hparse
  have hrow : lineRow number line = .ok (Row.ofTexts text) := by
    unfold lineRow
    rw [hparse, Option.bind_some, hvalue]
    dsimp only
    rw [ofValue?_record htext]
  unfold readLine
  rw [Bytes.text?_ofText]
  dsimp only
  rw [if_neg hvisible, hrow]

theorem SpellsLines.lineFeed_not_mem {room : Nat} {texts : List (String → Option String)}
    {lines : List String} (h : SpellsLines room texts lines) :
    ∀ line ∈ lines, '\n' ∉ line.toList := by
  induction h with
  | nil => exact List.forall_mem_nil _
  | blank hfeed _ _ ih => exact List.forall_mem_cons.mpr ⟨hfeed, ih⟩
  | record hfeed _ _ _ ih => exact List.forall_mem_cons.mpr ⟨hfeed, ih⟩

/-- Every line gives its row or none; left are the rows of the texts. -/
theorem SpellsLines.mapM_readLine {texts : List (String → Option String)} {lines : List String}
    {room : Nat} (hroom : room + 1 = Json.depthLimit) (h : SpellsLines room texts lines)
    (mode : Strictness) (first : Nat) :
    ∃ rows, ((lines.map Bytes.ofText).zipIdx first).mapM
        (fun l => readLine mode (l.2 + 1) l.1) = .ok rows ∧
      rows.filterMap id = texts.map Row.ofTexts := by
  induction h generalizing first with
  | nil => exact ⟨[], rfl, rfl⟩
  | blank _ hblank _ ih =>
    obtain ⟨rows, hread, hrows⟩ := ih (first + 1)
    refine ⟨none :: rows, ?_, hrows⟩
    rw [List.map_cons, List.zipIdx_cons, List.mapM_cons, readLine_blank mode _ hblank,
      Except.ok_bind, hread]
    rfl
  | @record text _ _ _ _ _ hline htext _ ih =>
    obtain ⟨rows, hread, hrows⟩ := ih (first + 1)
    refine ⟨some (Row.ofTexts text) :: rows, ?_, congrArg (Row.ofTexts text :: ·) hrows⟩
    rw [List.map_cons, List.zipIdx_cons, List.mapM_cons, readLine_record mode _ hroom hline htext,
      Except.ok_bind, hread]
    rfl

/-- Lines without line feeds are told apart. -/
theorem lines_lineBytes {lines : List String} (hne : lines ≠ [])
    (h : ∀ line ∈ lines, '\n' ∉ line.toList) :
    Load.lines (lineBytes lines) = lines.map Bytes.ofText := by
  have hfeeds : ∀ line ∈ lines.map Bytes.ofText, (10 : UInt8) ∉ line := by
    intro line hline
    obtain ⟨s, hs, rfl⟩ := List.mem_map.mp hline
    exact Bytes.lineFeed_not_mem_ofText (h s hs)
  rw [lines_eq_splitOn]
  exact List.splitOn_intercalate 10 hfeeds (mt List.map_eq_nil_iff.mp hne)

/-- Lines of records are read as the rows of their texts, in strict mode or not. -/
theorem lineRows_of_spells (mode : Strictness) {texts : List (String → Option String)}
    {lines : List String} {room : Nat} (hroom : room + 1 = Json.depthLimit)
    (h : SpellsLines room texts lines) :
    lineRows mode (lineBytes lines) = .ok (texts.map Row.ofTexts) := by
  have hnonempty : ∀ lines, lines ≠ [] → SpellsLines room texts lines →
      lineRows mode (lineBytes lines) = .ok (texts.map Row.ofTexts) := by
    intro lines hne h
    obtain ⟨rows, hread, hrows⟩ := h.mapM_readLine hroom mode 0
    unfold lineRows
    rw [lines_lineBytes hne h.lineFeed_not_mem]
    refine (congrArg (· >>= fun rows => pure (rows.filterMap id)) hread).trans ?_
    rw [Except.ok_bind, hrows]
    rfl
  by_cases hne : lines = []
  · -- no line at all is one empty line
    subst hne
    have hempty : Bytes.ofText "" = [] := Bytes.ofText_ofList []
    have hlines : lineBytes [] = lineBytes [""] := by
      unfold lineBytes
      rw [List.map_singleton, hempty]
      rfl
    rw [hlines]
    exact hnonempty [""] (List.cons_ne_nil _ _) (.blank (by simp) (by simp) h)
  · exact hnonempty lines hne h

end Load

/-- The same texts, written as a table with commas, as a table with tabs and as lines of JSON
records, are loaded as the same attempts in the same order, in strict mode as in the other. The
members that name no column may hold what they like, as deep as the reader goes. -/
theorem load_formats (mode : Strictness) {texts : List (String → Option String)}
    {header header' : List String} {body body' : List (List String)} {lines : List String}
    (hcommas : Load.Tabulates header body texts) (htabs : Load.Tabulates header' body' texts)
    (hlines : Load.SpellsLines (Json.depthLimit - 1) texts lines) {stem : String} {c : Char}
    (hstem : stem.toList.getLast? = some c) (hc : c ≠ '/') :
    ∃ attempts, load mode (.ofPath (stem ++ ".csv"))
        (some (Load.tableBytes 44 (header :: body))) = .ok attempts ∧
      load mode (.ofPath (stem ++ ".tsv"))
        (some (Load.tableBytes 9 (header' :: body'))) = .ok attempts ∧
      load mode (.ofPath (stem ++ ".jsonl")) (some (Load.lineBytes lines)) = .ok attempts ∧
      attempts = interpretRows (texts.map Row.ofTexts) := by
  have hcsv := Load.tableRows_of_tabulates mode Delimited.distinct_comma (by decide) hcommas
  have htsv := Load.tableRows_of_tabulates mode Delimited.distinct_tab (by decide) htabs
  have hjsonl := Load.lineRows_of_spells mode rfl hlines
  refine ⟨_, ?_, ?_, ?_, rfl⟩
  · rw [Format.ofPath_csv]
    exact congrArg (·.map interpretRows) hcsv
  · rw [Format.ofPath_tsv hstem hc]
    exact congrArg (·.map interpretRows) htsv
  · rw [Format.ofPath_jsonl hstem hc]
    exact congrArg (·.map interpretRows) hjsonl

/-! ## The same texts in three formats -/

/-- A row with marks in its identifier and blanks for a country, and a row without texts. -/
def markedTexts : List (String → Option String) :=
  [fun c => if c = "id" then some "a,\"b\"\n" else if c = "country" then some "\u2003" else none,
    fun _ => none]

/-- The columns with another one among them, their names between blanks and in any case. -/
def spacedHeader : List String :=
  ["city", " ID", "Country\t", "x", "user_id", "SUCCESS", "ip_address", "asn", "latitude",
    "longitude", "created_at"]

def spacedRows : List (List String) :=
  [["", "a,\"b\"\n", "\u2003", "\"", "", "", "", "", "", "", ""], List.replicate 11 ""]

def plainRows : List (List String) :=
  [["a,\"b\"\n", "", "", "", "\u2003", "", "", "", "", ""], List.replicate 10 ""]

/-- The texts as JSON records, with another member, escapes and blank lines. -/
def recordLines : List String :=
  ["\x7b\"x\":[null, 12],\"country\":\"\u2003\" , \"\\u0069d\":\"a,\\\"b\\\"\\n\"\x7d", " ",
    "\x7b\"id\":null\x7d", ""]

theorem tabulates_spacedRows : Load.Tabulates spacedHeader spacedRows markedTexts := by
  have hnames : spacedHeader.map (fun heading => Text.lowered (Text.trim heading)) =
      ["city", "id", "country", "x", "user_id", "success", "ip_address", "asn", "latitude",
        "longitude", "created_at"] := by
    decide +kernel
  refine Load.tabulates_of_nodup hnames (by decide +kernel) (by decide +kernel) ?_
  exact .cons (by decide +kernel) (.cons (by decide +kernel) .nil)

theorem tabulates_plainRows : Load.Tabulates columnNames plainRows markedTexts := by
  refine Load.tabulates_of_nodup Load.map_columnNames (by decide +kernel) (fun _ hc => hc) ?_
  exact .cons (by decide +kernel) (.cons (by decide +kernel) .nil)

/-- The members of the first record. -/
def markedMembers : List (String × Json.Value) :=
  [("x", .list [.null, .number (.count 12)]), ("country", .text "\u2003"),
    ("id", .text "a,\"b\"\n")]

theorem spellsMembers_marked : Json.SpellsMembers (Json.SpellsValue 126) markedMembers
    "\x7b\"x\":[null, 12],\"country\":\"\u2003\" , \"\\u0069d\":\"a,\\\"b\\\"\\n\"\x7d".toList := by
  have hnone : Json.Spaces [] := List.forall_mem_nil _
  have hblank : Json.Spaces [' '] := by simp [Json.Spaces, Json.isSpace]
  have hid : Json.SpellsText "id" "\"\\u0069d\"".toList :=
    ⟨[['\\', 'u', '0', '0', '6', '9'], ['d']],
      .cons (.code ⟨0, 0, 6, 9, by decide, by decide⟩)
        (.cons (Json.spellsChar_escapeChar 'd') .nil),
      rfl⟩
  have hcount : Json.SpellsPlain (.number (.count 12)) ['1', '2'] :=
    .number (Json.spellsNumeral_chars (Json.wellFormed_countNumeral 12))
      (Json.toNumber?_count (by decide))
  have hlist : Json.SpellsItems (Json.SpellsValue 125) [.null, .number (.count 12)]
      "[null, 12]".toList :=
    ⟨[], ["null".toList, " 12".toList], hnone,
      .cons (Json.padded_self (Json.SpellsPlain.null.spells _))
        (.cons ⟨[' '], _, [], hblank, hnone, hcount.spells _, rfl⟩ .nil), rfl⟩
  refine ⟨[], ["\"x\":[null, 12]".toList, "\"country\":\"\u2003\" ".toList,
    " \"\\u0069d\":\"a,\\\"b\\\"\\n\"".toList], hnone, .cons ?_ (.cons ?_ (.cons ?_ .nil)), rfl⟩
  · exact ⟨_, _, Json.padded_self (Json.spellsText_literalChars "x"),
      Json.padded_self (.inr (.inl ⟨_, rfl, hlist⟩)), rfl⟩
  · exact ⟨_, _, Json.padded_self (Json.spellsText_literalChars "country"),
      ⟨[], _, [' '], hnone, hblank, Json.spellsValue_text _ "\u2003", rfl⟩, rfl⟩
  · exact ⟨_, _, ⟨[' '], _, [], hblank, hnone, hid, rfl⟩,
      Json.padded_self (Json.spellsValue_text _ _), rfl⟩

theorem spellsLines_recordLines : Load.SpellsLines 126 markedTexts recordLines := by
  have hnull : Json.SpellsMembers (Json.SpellsValue 126) [("id", .null)]
      "\x7b\"id\":null\x7d".toList :=
    Json.spellsMembers_chars (List.forall_mem_singleton.mpr (Json.SpellsPlain.null.spells _))
  have hmarked : Load.Represents (markedTexts.head (List.cons_ne_nil _ _)) markedMembers :=
    Row.forall_columnNames.mpr ⟨.text, .omitted, .omitted, .omitted, .text, .omitted, .omitted,
      .omitted, .omitted, .omitted⟩
  have hnone : Load.Represents (fun _ => none) [("id", .null)] :=
    Row.forall_columnNames.mpr ⟨.null, .omitted, .omitted, .omitted, .omitted, .omitted, .omitted,
      .omitted, .omitted, .omitted⟩
  exact .record (by simp) (Json.padded_self spellsMembers_marked) hmarked
    (.blank (by simp) (by simp [Text.isBlank]) (.record (by simp) (Json.padded_self hnull) hnone
      (.blank (by simp) (by simp) .nil)))

/-- Marks, blanks, escapes and lines of blanks leave no difference. -/
theorem load_formats_marked : ∃ attempts,
    load .strict (.ofPath ("a" ++ ".csv"))
        (some (Load.tableBytes 44 (spacedHeader :: spacedRows))) = .ok attempts ∧
      load .strict (.ofPath ("a" ++ ".tsv"))
        (some (Load.tableBytes 9 (columnNames :: plainRows))) = .ok attempts ∧
      load .strict (.ofPath ("a" ++ ".jsonl")) (some (Load.lineBytes recordLines)) = .ok attempts ∧
      attempts.map (fun a => (a.id, a.country)) = [("a,\"b\"", none), ("row-1", none)] := by
  have hstem : "a".toList.getLast? = some 'a' := rfl
  obtain ⟨attempts, hcsv, htsv, hjsonl, hattempts⟩ := load_formats .strict tabulates_spacedRows
    tabulates_plainRows spellsLines_recordLines hstem (by decide)
  refine ⟨attempts, hcsv, htsv, hjsonl, ?_⟩
  rw [hattempts]
  decide +kernel

/-! ## Values that are nested too deep -/

/-- A line of a node that is nested too deep is passed over, but it is an error in strict mode. -/
theorem load_of_deep (mode : Strictness) {line : String} {n : Json.Node}
    (hparse : Json.parse? line = some n) (hdeep : n.toValue? Json.depthLimit = none)
    (hfeed : '\n' ∉ line.toList) : load mode .jsonLines (some (Load.lineBytes [line])) =
      if mode = .lenient then .ok [] else .error .malformed := by
  have hvisible : Text.trimChars line.toList ≠ [] := by
    intro hnil
    rw [Json.parse?_of_blank (Text.trimChars_eq_nil_iff.mp hnil)] at hparse
    cases hparse
  have hread : ∀ number, Load.readLine mode number (Bytes.ofText line) =
      if mode = .lenient then .ok none else .error .malformed := by
    intro number
    unfold Load.readLine Load.lineRow
    rw [Bytes.text?_ofText]
    dsimp only
    rw [if_neg hvisible, hparse, Option.bind_some, hdeep]
    cases mode <;> rfl
  have hlines : Load.lines (Load.lineBytes [line]) = [Bytes.ofText line] :=
    Load.lines_lineBytes (List.cons_ne_nil _ _) (List.forall_mem_singleton.mpr hfeed)
  show (Load.lineRows mode (Load.lineBytes [line])).map interpretRows = _
  unfold Load.lineRows
  rw [hlines, List.zipIdx_cons, List.zipIdx_nil, List.mapM_cons]
  dsimp only
  rw [hread]
  cases mode <;> rfl

/-- The members of a record with an identifier and a value that is nested too deep. -/
def deepMembers : List (String × Json.Value) :=
  [("id", .text "a"), ("x", Json.nested Json.depthLimit)]

def deepRecord : String := (Json.Value.record deepMembers).compact

/-- The text of the record, as a table has it. -/
def deepText : String → Option String := fun c => if c = "id" then some "a" else none

def deepRow : List String := ["a", "", "", "", "", "", "", "", "", ""]

theorem tabulates_deepRow : Load.Tabulates columnNames [deepRow] [deepText] :=
  Load.tabulates_of_nodup Load.map_columnNames (by decide +kernel) (fun _ hc => hc)
    (.cons (by decide +kernel) .nil)

theorem lineFeed_not_mem_deepRecord : '\n' ∉ deepRecord.toList := by
  rw [deepRecord, Json.Value.compact, String.toList_ofList]
  decide +kernel

theorem spellsMembers_deepRecord : Json.SpellsMembers (Json.SpellsValue Json.depthLimit) deepMembers
    deepRecord.toList := by
  rw [deepRecord, Json.Value.compact, String.toList_ofList]
  refine Json.spellsMembers_chars
    (List.forall_mem_cons.mpr ⟨?_, List.forall_mem_singleton.mpr ?_⟩)
  · exact Json.spellsValue_text _ "a"
  · exact Json.spellsValue_nested _

theorem spellsLines_deepRecord : Load.SpellsLines Json.depthLimit [deepText] [deepRecord] := by
  have htext : Load.Represents deepText deepMembers :=
    Row.forall_columnNames.mpr ⟨.text, .omitted, .omitted, .omitted, .omitted, .omitted, .omitted,
      .omitted, .omitted, .omitted⟩
  exact .record lineFeed_not_mem_deepRecord (Json.padded_self spellsMembers_deepRecord) htext .nil

theorem toValue?_deepMembers :
    (Json.Value.record deepMembers).node.toValue? Json.depthLimit = none := by
  have hx : (Json.nested Json.depthLimit).node.toValue? 126 = none := Json.toValue?_nested 126
  unfold deepMembers
  generalize Json.nested Json.depthLimit = deep at hx
  simp [Json.depthLimit, Json.Value.node, Json.Value.memberNodes, Json.Node.toValue?,
    Json.Node.toMembers?, Json.decode?_pieces, hx]

/-- A table with the text is loaded as one attempt. The record that gives the same text and a value
nested too deep for a column that there is not is passed over, and it is an error in strict mode. -/
theorem load_deepRecord :
    Load.Tabulates columnNames [deepRow] [deepText] ∧
      Load.SpellsLines Json.depthLimit [deepText] [deepRecord] ∧
      (∀ mode, (load mode (.ofPath ("a" ++ ".csv"))
        (some (Load.tableBytes 44 [columnNames, deepRow]))).toOption.map (·.map (·.id)) =
          some ["a"]) ∧
      load .lenient (.ofPath ("a" ++ ".jsonl")) (some (Load.lineBytes [deepRecord])) = .ok [] ∧
      load .strict (.ofPath ("a" ++ ".jsonl")) (some (Load.lineBytes [deepRecord])) =
        .error .malformed := by
  have hstem : "a".toList.getLast? = some 'a' := rfl
  have hjsonl : Format.ofPath ("a" ++ ".jsonl") = .jsonLines :=
    Format.ofPath_jsonl hstem (by decide)
  have hload : ∀ mode, load mode .jsonLines (some (Load.lineBytes [deepRecord])) =
      if mode = .lenient then .ok [] else .error .malformed := fun mode =>
    load_of_deep mode (Json.parse?_compact _) toValue?_deepMembers lineFeed_not_mem_deepRecord
  refine ⟨tabulates_deepRow, spellsLines_deepRecord, fun mode => ?_, ?_, ?_⟩
  · have hrows : load mode .commaSeparated (some (Load.tableBytes 44 [columnNames, deepRow])) =
        .ok (interpretRows [Row.ofTexts deepText]) :=
      congrArg (·.map interpretRows)
        (Load.tableRows_of_tabulates mode Delimited.distinct_comma (by decide) tabulates_deepRow)
    rw [Format.ofPath_csv, hrows]
    decide +kernel
  · rw [hjsonl, hload]
    rfl
  · rw [hjsonl, hload]
    rfl

end LoginForest

/-
  A report is an export (`reloads`). Every field of the row of a loaded attempt is read as what it
  was written for, whatever marks the texts hold, and the table of the report gives the attempts in
  their order. So a report lists its rows (`lists_commaSeparated`): a header, and then one record
  for each row, with the attempt, its score and its flag.
-/
import LoginForest.Proofs.Attempt.Format
import LoginForest.Proofs.Attempt.Loaded
import LoginForest.Proofs.Attempt.Table
import LoginForest.Proofs.Time.Stored
import LoginForest.Scoring.Report

namespace LoginForest

namespace Report

/-! ## Rows of a report -/

/-- The fields of a row stand in the columns of an export. -/
theorem tableRow_fields (s : Scored) : Load.tableRow columns (fields s) =
    { id := Text.filled? s.attempt.id
      user := Text.filled? (s.attempt.user.getD "")
      success := Text.filled? (truthText s.attempt.success)
      address := Text.filled? (s.attempt.address.getD "")
      country := Text.filled? (s.attempt.country.getD "")
      city := Text.filled? (s.attempt.city.getD "")
      network := Text.filled? (s.attempt.network.getD "")
      latitude := Text.filled? ((s.attempt.latitude.map Number.plain).getD "")
      longitude := Text.filled? ((s.attempt.longitude.map Number.plain).getD "")
      time := Text.filled? s.attempt.time.text } := by
  have hid : Load.lastColumn? columns "id" = some 0 := by decide
  have huser : Load.lastColumn? columns "user_id" = some 1 := by decide
  have htime : Load.lastColumn? columns "created_at" = some 2 := by decide
  have haddress : Load.lastColumn? columns "ip_address" = some 3 := by decide
  have hcountry : Load.lastColumn? columns "country" = some 4 := by decide
  have hcity : Load.lastColumn? columns "city" = some 5 := by decide
  have hnetwork : Load.lastColumn? columns "asn" = some 6 := by decide
  have hlatitude : Load.lastColumn? columns "latitude" = some 7 := by decide
  have hlongitude : Load.lastColumn? columns "longitude" = some 8 := by decide
  have hsuccess : Load.lastColumn? columns "success" = some 9 := by decide
  simp only [Load.tableRow, Row.ofColumns, hid, huser, htime, haddress, hcountry, hcity, hnetwork,
    hlatitude, hlongitude, hsuccess, Option.bind_some, fields, List.getElem?_cons_zero,
    List.getElem?_cons_succ]

theorem readSuccess_truthText (b : Bool) :
    Row.readSuccess (Text.filled? (truthText b)) = (b, []) := by
  have hfilled : Text.IsFilled (truthText b) := by cases b <;> decide
  have hword : Row.boolean? (Text.lowered (truthText b)) = some b := by cases b <;> decide
  rw [hfilled, Row.readSuccess, hword]

theorem readTime_text (t : Time.Timestamp) :
    Row.readTime (Text.filled? t.text) = (t, []) := by
  rw [t.isFilled_text, Row.readTime, t.read?_text]

theorem readCoordinate_plain (column : String) {x : Option Float}
    (h : ∀ y, x = some y → y.isFinite) :
    Row.readCoordinate column (Text.filled? ((x.map Number.plain).getD "")) = (x, []) := by
  cases x with
  | none => rfl
  | some y =>
    have hy := h y rfl
    rw [Option.map_some, Option.getD_some, Number.isFilled_plain hy, Row.readCoordinate,
      Row.coordinate?, Number.read?_plain]
    simp [hy]

/-- The row of a loaded attempt describes it, and no field is replaced. -/
theorem interpret_fields {s : Scored} (h : s.attempt.Loaded) (index : Nat) :
    (Load.tableRow columns (fields s)).interpret index = (s.attempt, []) := by
  rw [tableRow_fields, h.id, h.user.filled?_getD, h.address.filled?_getD, h.country.filled?_getD,
    h.city.filled?_getD, h.network.filled?_getD]
  simp only [Row.interpret, readSuccess_truthText, readTime_text,
    readCoordinate_plain _ h.latitude, readCoordinate_plain _ h.longitude, h.normal]
  rfl

/-! ## Tables -/

/-- A report does not start with a byte order mark. -/
theorem dropMark_bytes {delimiter : UInt8} (hd : delimiter ≠ 0xef) (rows : List Scored) :
    Load.dropMark (bytes delimiter rows) = bytes delimiter rows := by
  obtain ⟨first, hmark, hdrop⟩ :=
    Load.dropMark_tableBytes hd "id" "user_id" (columns.drop 2) (rows.map fields)
  have hid : first = "id" := hmark.resolve_right fun h => by
    have hletter : 'i' = '\ufeff' := (List.cons.inj h).1
    exact absurd hletter (by decide)
  rw [hid] at hdrop
  exact hdrop

theorem ne_nil_of_mem {rows : List Scored} : ∀ row ∈ columns :: rows.map fields, row ≠ [] := by
  intro row hrow
  rcases List.mem_cons.mp hrow with rfl | hrow
  · simp [columns]
  · obtain ⟨s, -, rfl⟩ := List.mem_map.mp hrow
    simp [fields]

/-- A report has its header and the fields of its rows. -/
theorem rows_bytes {delimiter : UInt8} (hm : (Delimited.byteMarks delimiter).Distinct)
    (rows : List Scored) : Delimited.rows (Delimited.byteMarks delimiter) (bytes delimiter rows) =
      (columns :: rows.map fields).map (·.map Bytes.ofText) :=
  Load.rows_tableBytes hm ne_nil_of_mem

/-- The rows of a report are those that its fields were written for. -/
theorem tableRows_bytes (mode : Strictness) {delimiter : UInt8}
    (hm : (Delimited.byteMarks delimiter).Distinct) (hd : delimiter ≠ 0xef) (rows : List Scored) :
    Load.tableRows mode delimiter (bytes delimiter rows) =
      .ok (rows.map fun s => Load.tableRow columns (fields s)) := by
  rw [Load.tableRows_of_dropMark mode hm ne_nil_of_mem (dropMark_bytes hd rows), List.map_map]
  rfl

theorem interpretRows_fields {rows : List Scored} (h : ∀ s ∈ rows, s.attempt.Loaded) :
    interpretRows (rows.map fun s => Load.tableRow columns (fields s)) =
      rows.map (·.attempt) := by
  unfold interpretRows
  refine List.ext_getElem (by simp) fun i hi hi' => ?_
  have hlt : i < rows.length := by simpa using hi'
  rw [List.getElem_mapIdx, List.getElem_map, List.getElem_map,
    interpret_fields (h _ (List.getElem_mem hlt))]

/-- A report of loaded attempts, read as an export. -/
theorem interpretRows_bytes (mode : Strictness) {delimiter : UInt8}
    (hm : (Delimited.byteMarks delimiter).Distinct) (hd : delimiter ≠ 0xef) {rows : List Scored}
    (h : ∀ s ∈ rows, s.attempt.Loaded) :
    (Load.tableRows mode delimiter (bytes delimiter rows)).map interpretRows =
      .ok (rows.map (·.attempt)) := by
  rw [tableRows_bytes mode hm hd]
  exact congrArg Except.ok (interpretRows_fields h)

/-! ## What a report lists -/

/-- What a record has in a column of reports. -/
def field? (record : List String) (column : String) : Option String :=
  (Load.lastColumn? columns column).bind fun i => record[i]?

/-- A record of a row, with a field for every column: it is read as the attempt, with nothing
replaced, and its last fields are the score and the flag. -/
structure IsRecord (record : List String) (s : Scored) : Prop where
  width : record.length = columns.length
  attempt : ∀ index, (Load.tableRow columns record).interpret index = (s.attempt, [])
  score : (field? record "anomaly_score").bind Number.read? = some s.score
  flag : (field? record "is_anomaly").bind Row.boolean? = some s.flagged

/-- The bytes of a table that lists rows: under a header of the columns there is one record for
each row, in their order, and the table is loaded as their attempts. -/
structure Lists (content : Bytes) (rows : List Scored) : Prop where
  records : ∃ records, Delimited.rows (Delimited.byteMarks 44) content =
    (columns :: records).map (·.map Bytes.ofText) ∧ List.Forall₂ IsRecord records rows
  attempts : ∀ mode, load mode .commaSeparated (some content) = .ok (rows.map (·.attempt))

theorem field?_fields (s : Scored) :
    field? (fields s) "anomaly_score" = some (Number.plain s.score) ∧
      field? (fields s) "is_anomaly" = some (truthText s.flagged) := by
  have hscore : Load.lastColumn? columns "anomaly_score" = some 10 := by decide
  have hflag : Load.lastColumn? columns "is_anomaly" = some 11 := by decide
  rw [field?, field?, hscore, hflag]
  exact ⟨rfl, rfl⟩

theorem boolean?_truthText (b : Bool) : Row.boolean? (truthText b) = some b := by
  cases b <;> decide

theorem isRecord_fields {s : Scored} (h : s.attempt.Loaded) : IsRecord (fields s) s where
  width := rfl
  attempt := interpret_fields h
  score := by rw [(field?_fields s).1, Option.bind_some, Number.read?_plain]
  flag := by rw [(field?_fields s).2, Option.bind_some, boolean?_truthText]

/-- A report lists the rows that it is written for, when their attempts are loaded ones. -/
theorem lists_commaSeparated {rows : List Scored} (h : ∀ s ∈ rows, s.attempt.Loaded) :
    Lists (commaSeparated rows) rows where
  records := by
    refine ⟨rows.map fields, rows_bytes Delimited.distinct_comma rows, ?_⟩
    rw [List.forall₂_map_left_iff, List.forall₂_same]
    exact fun s hs => isRecord_fields (h s hs)
  attempts mode := interpretRows_bytes mode Delimited.distinct_comma (by decide) h

/-! ## Reports as exports -/

/-- Whatever attempts are loaded, and whatever scores and flags they get: their report is loaded
as the same attempts in the same order, from a file with commas as from one with tabs, in strict
mode or not. -/
theorem reloads {mode : Strictness} {format : Format} {content : Option Bytes}
    {attempts : List Attempt} (h : load mode format content = .ok attempts) {rows : List Scored}
    (hrows : rows.map (·.attempt) = attempts) (again : Strictness) (stem : String) :
    load again (.ofPath (stem ++ ".csv")) (some (commaSeparated rows)) = .ok attempts ∧
      (∀ c, stem.toList.getLast? = some c → c ≠ '/' →
        load again (.ofPath (stem ++ ".tsv")) (some (bytes 9 rows)) = .ok attempts) := by
  have hloaded : ∀ s ∈ rows, s.attempt.Loaded := by
    intro s hs
    refine loaded_of_load h s.attempt ?_
    rw [← hrows]
    exact List.mem_map_of_mem hs
  refine ⟨?_, fun c hc hne => ?_⟩
  · rw [Format.ofPath_csv, ← hrows]
    exact interpretRows_bytes again Delimited.distinct_comma (by decide) hloaded
  · rw [Format.ofPath_tsv hc hne, ← hrows]
    exact interpretRows_bytes again Delimited.distinct_tab (by decide) hloaded

/-- A row with marks of a table in its fields, and a row of empty fields. -/
def markedRows : Bytes :=
  ("id,city,ip_address,latitude,created_at\n" ++
    "\" a, \"\"b\"\"\",\"x\ny\",10.0.0.1/32,5e-1,2024-05-01T10:00:60+02:00\n" ++
    ",,,,\n").toList.map fun c => UInt8.ofNat c.toNat

/-- The rows are loaded, and their reports are loaded as the same attempts. -/
theorem reloads_markedRows : ∃ attempts, load .lenient .commaSeparated (some markedRows) =
      .ok attempts ∧
    attempts.map (fun a => (a.id, a.city, a.address, a.time.text)) =
      [("a, \"b\"", some "x\ny", some "10.0.0.1", "2024-05-01T10:00:60+02:00"),
        ("row-1", none, none, "1970-01-01T00:00:00+00:00")] ∧
    load .strict (.ofPath ("report" ++ ".csv"))
      (some (commaSeparated (attempts.map fun a => ⟨a, 1, true⟩))) = .ok attempts ∧
    load .strict (.ofPath ("report" ++ ".tsv"))
      (some (bytes 9 (attempts.map fun a => ⟨a, 1, true⟩))) = .ok attempts := by
  have hread : (load .lenient .commaSeparated (some markedRows)).toOption.any fun attempts =>
      decide (attempts.map (fun a => (a.id, a.city, a.address, a.time.text)) =
        [("a, \"b\"", some "x\ny", some "10.0.0.1", "2024-05-01T10:00:60+02:00"),
          ("row-1", none, none, "1970-01-01T00:00:00+00:00")]) := by
    decide +kernel
  obtain ⟨attempts, hload, hfields⟩ := Except.exists_ok_of_any hread
  have hrows : (attempts.map fun a => (⟨a, 1, true⟩ : Scored)).map (·.attempt) = attempts := by
    rw [List.map_map]
    exact List.map_id attempts
  obtain ⟨hcommas, htabs⟩ := reloads hload hrows .strict "report"
  exact ⟨attempts, hload, of_decide_eq_true hfields, hcommas, htabs 't' (by decide) (by decide)⟩

end Report

end LoginForest

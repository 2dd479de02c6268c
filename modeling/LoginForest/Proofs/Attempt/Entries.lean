/-
  The entries of a file: its lines, or the rows of its table. What is read are the rows of the
  entries, in either mode (`rows_eq_filterMap`), one for each entry that can be read
  (`map_row?_readable`): a line that spells a record, or fields that are texts.
-/
import LoginForest.Proofs.Attempt.Strict

namespace LoginForest

namespace Bytes

/-- Fields are read if they are texts. -/
theorem mapM_text?_eq_some_iff {fields : List Bytes} {texts : List String} :
    fields.mapM text? = some texts ↔ fields = texts.map ofText := by
  refine ⟨fun h => ?_, fun h => h ▸ mapM_text?_ofText texts⟩
  have hall : List.Forall₂ (· = ·) fields (texts.map ofText) :=
    List.forall₂_map_right_iff.mpr ((List.forall₂_of_mapM h).imp fun _ _ => eq_ofText)
  rwa [List.forall₂_eq_eq_eq] at hall

end Bytes

namespace Load

/-- What may hold a row: a line, or the fields of a row in a table, with those of its header. -/
inductive Entry where
  | line (line : Bytes)
  | fields (header fields : List Bytes)

namespace Entry

/-- The row of an entry, if it can be read. -/
def row? : Entry → Option Row
  | .line b => recordRow? b
  | .fields header row => do
    return tableRow (← header.mapM Bytes.text?) (← row.mapM Bytes.text?)

/-- A line can be read if it spells a record, and a row of a table if its fields are texts and the
header is. -/
def Readable : Entry → Prop
  | .line b => ∃ s members, b = Bytes.ofText s ∧
      Json.Padded (Json.SpellsValue Json.depthLimit (.record members)) s.toList
  | .fields header row => ∃ names texts : List String,
      header = names.map Bytes.ofText ∧ row = texts.map Bytes.ofText

theorem isSome_row?_iff (e : Entry) : e.row?.isSome ↔ e.Readable := by
  cases e with
  | line b =>
    show (recordRow? b).isSome ↔ _
    constructor
    · intro h
      obtain ⟨r, hr⟩ := Option.isSome_iff_exists.mp h
      obtain ⟨s, hs, -⟩ := Option.bind_eq_some_iff.mp hr
      obtain rfl := Bytes.eq_ofText hs
      obtain ⟨members, hspells⟩ := isSome_recordRow?_iff.mp h
      exact ⟨s, members, rfl, hspells⟩
    · rintro ⟨s, members, rfl, hspells⟩
      exact isSome_recordRow?_iff.mpr ⟨members, hspells⟩
  | fields header row =>
    simp only [Readable, ← Bytes.mapM_text?_eq_some_iff, row?]
    cases header.mapM Bytes.text? <;> cases row.mapM Bytes.text? <;> simp

instance (e : Entry) : Decidable e.Readable := decidable_of_iff _ e.isSome_row?_iff

end Entry

/-- The entries of a table under its header. -/
def tableEntries : List (List Bytes) → List Entry
  | [] => []
  | header :: body => body.map (Entry.fields header)

/-- The entries of a file. -/
def entries : Format → Bytes → List Entry
  | .commaSeparated, b => tableEntries (Delimited.rows (Delimited.byteMarks 44) (dropMark b))
  | .tabSeparated, b => tableEntries (Delimited.rows (Delimited.byteMarks 9) (dropMark b))
  | .jsonLines, b => (b.splitOn (10 : UInt8)).map Entry.line

theorem tableRows_eq_filterMap {delimiter : UInt8} {content : Bytes} {read : List Row}
    (h : tableRows .lenient delimiter content = .ok read) :
    read = (tableEntries (Delimited.rows (Delimited.byteMarks delimiter)
      (dropMark content))).filterMap Entry.row? := by
  unfold tableRows at h
  cases hsplit : Delimited.rows (Delimited.byteMarks delimiter) (dropMark content) with
  | nil =>
    rw [hsplit] at h
    exact (Except.ok.inj h).symm
  | cons header body =>
    rw [hsplit] at h
    dsimp only at h
    cases hheader : header.mapM Bytes.text? with
    | none =>
      rw [hheader] at h
      cases h
    | some names =>
      rw [hheader] at h
      obtain rfl := Except.ok.inj h
      rw [tableEntries, List.filterMap_map]
      refine List.filterMap_congr fun fields _ => ?_
      show _ = Entry.row? (.fields header fields)
      rw [Entry.row?, hheader]
      cases fields.mapM Bytes.text? <;> rfl

/-- What is read are the rows of the entries. -/
theorem rows_eq_filterMap {mode : Strictness} {format : Format} {content : Bytes}
    {read : List Row} (h : rows mode format (some content) = .ok read) :
    read = (entries format content).filterMap Entry.row? := by
  have hlenient : rows .lenient format (some content) = .ok read := by
    cases mode with
    | lenient => exact h
    | strict => exact rows_lenient_of_strict h
  cases format with
  | commaSeparated => exact tableRows_eq_filterMap hlenient
  | tabSeparated => exact tableRows_eq_filterMap hlenient
  | jsonLines =>
    rw [rows, lineRows_lenient] at hlenient
    split at hlenient
    case isTrue =>
      obtain rfl := Except.ok.inj hlenient
      rw [entries, List.filterMap_map]
      rfl
    case isFalse => cases hlenient

/-- The rows are those of the entries that can be read, one each. -/
theorem map_row?_readable {mode : Strictness} {format : Format} {content : Bytes}
    {read : List Row} (h : rows mode format (some content) = .ok read) :
    ((entries format content).filter (·.Readable)).map Entry.row? = read.map some := by
  have hreadable : (fun e : Entry => decide e.Readable) = fun e => e.row?.isSome :=
    funext fun e => Bool.eq_iff_iff.mpr (decide_eq_true_iff.trans e.isSome_row?_iff.symm)
  rw [rows_eq_filterMap h, List.map_filterMap_some_eq_filter_map_isSome, List.filter_map,
    hreadable]
  rfl

end Load

end LoginForest

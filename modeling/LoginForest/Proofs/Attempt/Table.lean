/-
  Tables as others may write them: the ten columns of an export in any order, their names in any
  case and between blanks, among any other columns. Every row of such a table is read as its texts
  (`tableRows_of_tabulates`). A column is looked up by the last heading that names it; so it does no
  harm that the heading in front may lose a byte order mark, and then name a column as well.
-/
import LoginForest.Attempt.Load
import LoginForest.Proofs.Bytes
import LoginForest.Proofs.Delimited
import LoginForest.Proofs.Text
import Mathlib.Data.List.Forall2

namespace LoginForest

/-! ## Rows of texts -/

namespace Row

/-- The row of these texts; blanks alone are no text. -/
def ofTexts (text : String → Option String) : Row :=
  ofColumns fun column => (text column).bind Text.filled?

theorem forall_columnNames {p : String → Prop} : (∀ c ∈ columnNames, p c) ↔
    p "id" ∧ p "user_id" ∧ p "success" ∧ p "ip_address" ∧ p "country" ∧ p "city" ∧ p "asn" ∧
      p "latitude" ∧ p "longitude" ∧ p "created_at" := by
  simp only [columnNames, List.forall_mem_cons, List.not_mem_nil, false_imp_iff, forall_true_iff,
    and_true]

theorem ofColumns_congr {f g : String → Option String} (h : ∀ c ∈ columnNames, f c = g c) :
    ofColumns f = ofColumns g := by
  obtain ⟨h₁, h₂, h₃, h₄, h₅, h₆, h₇, h₈, h₉, h₁₀⟩ := forall_columnNames.mp h
  unfold ofColumns
  rw [h₁, h₂, h₃, h₄, h₅, h₆, h₇, h₈, h₉, h₁₀]

end Row

namespace Load

/-! ## Headings -/

/-- A heading that names a column: its letters in any case, between blanks. -/
def Names (heading column : String) : Prop :=
  ∃ front letters back, heading.toList = front ++ letters ++ back ∧
    (∀ c ∈ front, Text.isBlank c) ∧ (∀ c ∈ back, Text.isBlank c) ∧
    letters.map Char.toLower = column.toList

theorem toLower_of_isBlank {c : Char} (h : Text.isBlank c) : c.toLower = c := by
  unfold Char.toLower
  refine dif_neg fun hupper => ?_
  obtain ⟨hlow, hhigh⟩ := hupper
  have hvisible : Text.isBlank c = false := by
    apply Text.isBlank_of_visible
    have hval : c.val.toNat = c.toNat := rfl
    rw [ge_iff_le, UInt32.le_iff_toNat_le, hval] at hlow
    rw [UInt32.le_iff_toNat_le, hval] at hhigh
    have hA : 'A'.val.toNat = 65 := rfl
    have hZ : 'Z'.val.toNat = 90 := rfl
    omega
  rw [hvisible] at h
  cases h

/-- A heading names the column that is left of it when blanks and the case of letters are. -/
theorem names_iff {heading column : String} (hcolumn : Text.NoBlank column.toList) :
    Names heading column ↔ Text.lowered (Text.trim heading) = column := by
  unfold Text.lowered Text.trim
  rw [String.toList_ofList, ← String.toList_inj, String.toList_ofList]
  constructor
  · rintro ⟨front, letters, back, hheading, hfront, hback, hletters⟩
    have hvisible : Text.NoBlank letters := by
      intro c hc
      by_contra hblank
      rw [Bool.not_eq_false] at hblank
      have hmem : c.toLower ∈ column.toList := hletters ▸ List.mem_map_of_mem hc
      rw [toLower_of_isBlank hblank] at hmem
      rw [hcolumn c hmem] at hblank
      cases hblank
    rw [hheading, Text.trimChars_pad hfront hback hvisible, hletters]
  · intro h
    obtain ⟨front, back, hpad, hfront, hback⟩ := Text.exists_pad heading.toList
    exact ⟨front, _, back, hpad, hfront, hback, h⟩

theorem noBlank_columnNames : ∀ c ∈ columnNames, Text.NoBlank c.toList := by
  have hall : columnNames.all fun c => c.toList.all fun x => !Text.isBlank x := by rfl
  intro c hc x hx
  have hvisible := List.all_eq_true.mp (List.all_eq_true.mp hall c hc) x hx
  exact (Bool.not_eq_true' _).mp hvisible

theorem map_columnNames :
    columnNames.map (fun heading => Text.lowered (Text.trim heading)) = columnNames := by
  decide +kernel

/-- The last heading that names a column tells its place. -/
theorem lastColumn?_eq {header : List String} {column heading : String} {i : Nat}
    (hcolumn : Text.NoBlank column.toList) (hi : header[i]? = some heading)
    (hnames : Names heading column)
    (hlast : ∀ j other, i < j → header[j]? = some other → ¬ Names other column) :
    lastColumn? header column = some i := by
  induction header using List.reverseRecOn with
  | nil => cases hi
  | append_singleton header last ih =>
    have hzip : (header ++ [last]).zipIdx.reverse =
        (last, header.length) :: header.zipIdx.reverse := by
      rw [List.zipIdx_append, List.reverse_append, Nat.zero_add]
      rfl
    unfold lastColumn? at ih ⊢
    rw [hzip]
    obtain ⟨hlt, -⟩ := List.getElem?_eq_some_iff.mp hi
    rw [List.length_append, List.length_singleton] at hlt
    by_cases hend : i = header.length
    · rw [hend, List.getElem?_concat_length] at hi
      obtain rfl := Option.some.inj hi
      rw [List.find?_cons_of_pos (by simpa using (names_iff hcolumn).mp hnames), hend]
      rfl
    · have hother := hlast header.length last (by omega) (List.getElem?_concat_length ..)
      rw [List.getElem?_append_left (by omega)] at hi
      rw [List.find?_cons_of_neg (by simpa using mt (names_iff hcolumn).mpr hother)]
      refine ih hi fun j other hj hmem => hlast j other hj ?_
      obtain ⟨hlt', -⟩ := List.getElem?_eq_some_iff.mp hmem
      rw [List.getElem?_append_left hlt', hmem]

/-! ## Tables -/

/-- A row that has its texts in the columns that a header names, nothing where it has none. -/
def Holds (header fields : List String) (text : String → Option String) : Prop :=
  ∀ c ∈ columnNames, ∀ (i : Nat) (heading : String), header[i]? = some heading →
    Names heading c → fields[i]? = some ((text c).getD "")

/-- A table of texts: every column is named by one heading, and every row holds its texts. -/
structure Tabulates (header : List String) (body : List (List String))
    (texts : List (String → Option String)) : Prop where
  heading : ∀ c ∈ columnNames, ∃ (i : Nat) (heading : String), header[i]? = some heading ∧
    Names heading c ∧ ∀ (j : Nat) (other : String), header[j]? = some other →
      Names other c → j = i
  rows : List.Forall₂ (Holds header) body texts

/-- Headings that are different names, those of the columns among them, and rows with the texts in
the columns make up a table. -/
theorem tabulates_of_nodup {header : List String} {body : List (List String)}
    {texts : List (String → Option String)} {names : List String}
    (hnames : header.map (fun heading => Text.lowered (Text.trim heading)) = names)
    (hnodup : names.Nodup) (hall : ∀ c ∈ columnNames, c ∈ names)
    (hrows : List.Forall₂ (fun (fields : List String) (text : String → Option String) =>
      ∀ p ∈ names.zipIdx, p.1 ∈ columnNames → fields[p.2]? = some ((text p.1).getD ""))
      body texts) :
    Tabulates header body texts := by
  have hname : ∀ (i : Nat) (heading c : String), c ∈ columnNames → header[i]? = some heading →
      (Names heading c ↔ names[i]? = some c) := by
    intro i heading c hc hi
    rw [names_iff (noBlank_columnNames c hc), ← hnames, List.getElem?_map, hi, Option.map_some,
      Option.some.injEq]
  constructor
  case heading =>
    intro c hc
    obtain ⟨i, hi⟩ := List.mem_iff_getElem?.mp (hall c hc)
    have hlt := (List.getElem?_eq_some_iff.mp hi).1
    rw [← hnames, List.length_map] at hlt
    have hheading := List.getElem?_eq_getElem hlt
    refine ⟨i, _, hheading, (hname i _ c hc hheading).mpr hi, fun j other hj hother => ?_⟩
    have hj' := (hname j other c hc hj).mp hother
    exact (List.getElem?_inj (List.getElem?_eq_some_iff.mp hj').1 hnodup).mp (hj'.trans hi.symm)
  case rows =>
    refine hrows.imp fun fields text hfields c hc i heading hi hheading => ?_
    have hplace := (hname i heading c hc hi).mp hheading
    exact hfields (c, i) (List.mem_zipIdx_iff_getElem?.mpr hplace) hc

/-- The bytes of a table. -/
def tableBytes (delimiter : UInt8) (table : List (List String)) : Bytes :=
  Delimited.write (Delimited.byteMarks delimiter) (table.map (·.map Bytes.ofText))

/-- A table of texts, a field at least in every row, is read back from its bytes. -/
theorem rows_tableBytes {delimiter : UInt8} (hm : (Delimited.byteMarks delimiter).Distinct)
    {table : List (List String)} (hne : ∀ row ∈ table, row ≠ []) :
    Delimited.rows (Delimited.byteMarks delimiter) (tableBytes delimiter table) =
      table.map (·.map Bytes.ofText) := by
  refine Delimited.rows_write hm fun row hrow => ?_
  obtain ⟨texts, htexts, rfl⟩ := List.mem_map.mp hrow
  exact fun hnil => hne texts htexts (List.map_eq_nil_iff.mp hnil)

/-- The texts of a table of texts are read as they are, unless a byte order mark is in front. -/
theorem tableRows_of_dropMark (mode : Strictness) {delimiter : UInt8}
    (hm : (Delimited.byteMarks delimiter).Distinct) {header : List String}
    {body : List (List String)} (hne : ∀ row ∈ header :: body, row ≠ []) {content : Bytes}
    (h : dropMark content = tableBytes delimiter (header :: body)) :
    tableRows mode delimiter content = .ok (body.map (tableRow header)) := by
  have hbody : ∀ fields : List String, ((fields.map Bytes.ofText).mapM Bytes.text?).map
      (tableRow header) = some (tableRow header fields) := by
    intro fields
    rw [Bytes.mapM_text?_ofText]
    rfl
  unfold tableRows
  rw [h, rows_tableBytes hm hne, List.map_cons]
  dsimp only
  rw [Bytes.mapM_text?_ofText]
  cases mode with
  | lenient =>
    dsimp only
    rw [List.filterMap_map]
    exact congrArg Except.ok
      (List.filterMap_eq_map_iff_forall_eq_some.mpr fun fields _ => hbody fields)
  | strict =>
    have hpure : (fun fields : List Bytes => (fields.mapM Bytes.text?).map (tableRow header)) ∘
        List.map Bytes.ofText = fun fields => pure (tableRow header fields) := funext hbody
    dsimp only
    rw [List.mapM_map, hpure, List.mapM_pure]
    rfl

/-! ## The byte order mark -/

/-- A heading, or the same without a byte order mark in front. -/
def AfterMark (heading heading' : String) : Prop :=
  heading' = heading ∨ heading.toList = '\ufeff' :: heading'.toList

theorem dropMark_of_ne {b : UInt8} (h : b ≠ 0xef) (rest : Bytes) :
    dropMark (b :: rest) = b :: rest := by
  unfold dropMark
  split
  case h_1 heq => exact absurd (List.cons.inj heq).1 h
  case h_2 => rfl

/-- Only the byte order mark is written as its three bytes. -/
theorem dropMark_encode (c : Char) (rest : Bytes) :
    dropMark (String.utf8EncodeChar c ++ rest) =
      if c = '\ufeff' then rest else String.utf8EncodeChar c ++ rest := by
  have hmark : String.utf8EncodeChar '\ufeff' = [0xef, 0xbb, 0xbf] := by decide
  split
  case isTrue h =>
    rw [h, hmark]
    rfl
  case isFalse h =>
    unfold dropMark
    split
    case h_1 rest' heq =>
      have hbytes : (String.utf8EncodeChar c ++ rest).toByteArray =
          (String.utf8EncodeChar '\ufeff' ++ rest').toByteArray := by
        rw [heq, hmark]
        rfl
      have hdecode := congrArg (ByteArray.utf8DecodeChar? · 0) hbytes
      simp only [List.toByteArray_append, ByteArray.utf8DecodeChar?_utf8EncodeChar_append]
        at hdecode
      exact absurd (Option.some.inj hdecode) h
    case h_2 => rfl

/-- The bytes of a heading in front are read as they are, or lose a byte order mark. -/
theorem dropMark_ofText {delimiter : UInt8} (hd : delimiter ≠ 0xef) (heading : String) :
    ∃ heading', AfterMark heading heading' ∧
      (∀ b ∈ Bytes.ofText heading', b ∈ Bytes.ofText heading) ∧
      ∀ rest, dropMark (Bytes.ofText heading ++ delimiter :: rest) =
        Bytes.ofText heading' ++ delimiter :: rest := by
  cases hheading : heading.toList with
  | nil =>
    have hempty : Bytes.ofText heading = [] := by
      rw [← String.ofList_toList (s := heading), hheading, Bytes.ofText_ofList]
      rfl
    refine ⟨heading, .inl rfl, fun _ hb => hb, fun rest => ?_⟩
    rw [hempty]
    exact dropMark_of_ne hd _
  | cons c cs =>
    have hbytes : Bytes.ofText heading =
        String.utf8EncodeChar c ++ Bytes.ofText (String.ofList cs) := by
      rw [← String.ofList_toList (s := heading), hheading, Bytes.ofText_ofList,
        Bytes.ofText_ofList, List.flatMap_cons]
    by_cases hc : c = '\ufeff'
    · refine ⟨String.ofList cs, .inr ?_, fun b hb => ?_, fun rest => ?_⟩
      · rw [hheading, hc, String.toList_ofList]
      · exact hbytes ▸ List.mem_append_right _ hb
      · rw [hbytes, List.append_assoc, dropMark_encode, if_pos hc]
    · refine ⟨heading, .inl rfl, fun _ hb => hb, fun rest => ?_⟩
      rw [hbytes, List.append_assoc, dropMark_encode, if_neg hc]

/-- A field in front is read as it is written, or loses a byte order mark. -/
theorem dropMark_writeField {delimiter : UInt8} (hd : delimiter ≠ 0xef) (heading : String) :
    ∃ heading', AfterMark heading heading' ∧ ∀ rest,
      dropMark (Delimited.writeField (Delimited.byteMarks delimiter) (Bytes.ofText heading) ++
          delimiter :: rest) =
        Delimited.writeField (Delimited.byteMarks delimiter) (Bytes.ofText heading') ++
          delimiter :: rest := by
  generalize hmarks : Delimited.byteMarks delimiter = marks
  by_cases hquoted : (Bytes.ofText heading).any (Delimited.isMark marks)
  · -- a quote is in front
    refine ⟨heading, .inl rfl, fun rest => ?_⟩
    rw [Delimited.writeField, if_pos hquoted, Delimited.quotedField, ← hmarks]
    exact dropMark_of_ne (b := 34) (by decide) _
  · obtain ⟨heading', hmark, hmem, hdrop⟩ := dropMark_ofText hd heading
    have hbare : ¬ (Bytes.ofText heading').any (Delimited.isMark marks) := by
      rw [List.any_eq_true] at hquoted ⊢
      rintro ⟨b, hb, h⟩
      exact hquoted ⟨b, hmem b hb, h⟩
    refine ⟨heading', hmark, fun rest => ?_⟩
    rw [Delimited.writeField, if_neg hquoted, Delimited.writeField, if_neg hbare, hdrop]

/-- The first heading stands in front. -/
theorem tableBytes_cons (delimiter : UInt8) (second : String) (more : List String)
    (body : List (List String)) : ∃ rest, ∀ first,
      tableBytes delimiter ((first :: second :: more) :: body) =
        Delimited.writeField (Delimited.byteMarks delimiter) (Bytes.ofText first) ++
          delimiter :: rest := by
  refine ⟨Delimited.writeFields (Delimited.byteMarks delimiter)
      ((second :: more).map Bytes.ofText) ++
    [10] ++ Delimited.write (Delimited.byteMarks delimiter) (body.map (·.map Bytes.ofText)),
    fun first => ?_⟩
  unfold tableBytes Delimited.write
  rw [List.map_cons, List.flatMap_cons, Delimited.writeRow, if_neg (by simp)]
  simp [Delimited.writeFields, Delimited.byteMarks]

/-- A table is read as it is written, or its first heading loses a byte order mark. -/
theorem dropMark_tableBytes {delimiter : UInt8} (hd : delimiter ≠ 0xef) (first second : String)
    (more : List String) (body : List (List String)) :
    ∃ first', AfterMark first first' ∧
      dropMark (tableBytes delimiter ((first :: second :: more) :: body)) =
        tableBytes delimiter ((first' :: second :: more) :: body) := by
  obtain ⟨rest, hrest⟩ := tableBytes_cons delimiter second more body
  obtain ⟨first', hmark, hdrop⟩ := dropMark_writeField hd first
  exact ⟨first', hmark, by rw [hrest, hrest, hdrop]⟩

/-! ## Columns -/

theorem Names.mem {heading column : String} (h : Names heading column) {c : Char}
    (hc : c ∈ heading.toList) : Text.isBlank c ∨ c.toLower ∈ column.toList := by
  obtain ⟨front, letters, back, hheading, hfront, hback, hletters⟩ := h
  rw [hheading, List.mem_append, List.mem_append] at hc
  rcases hc with (hc | hc) | hc
  · exact .inl (hfront c hc)
  · exact .inr (hletters ▸ List.mem_map_of_mem hc)
  · exact .inl (hback c hc)

/-- No heading that starts with a byte order mark names a column. -/
theorem not_names_mark {heading column : String} {cs : List Char} (hc : column ∈ columnNames)
    (hmark : heading.toList = '\ufeff' :: cs) : ¬ Names heading column := by
  intro h
  rcases h.mem (hmark ▸ List.mem_cons_self) with hblank | hletter
  · exact absurd hblank (by decide)
  · have hnone : ∀ c ∈ columnNames, '\ufeff'.toLower ∉ c.toList := by decide +kernel
    exact hnone column hc hletter

/-- The place of a column is found, also when the first heading has lost a byte order mark. -/
theorem Tabulates.exists_place {first first' : String} {more : List String}
    {body : List (List String)} {texts : List (String → Option String)}
    (h : Tabulates (first :: more) body texts) (hmark : AfterMark first first') {c : String}
    (hc : c ∈ columnNames) : ∃ i heading, lastColumn? (first' :: more) c = some i ∧
      (first :: more)[i]? = some heading ∧ Names heading c := by
  obtain ⟨i, heading, hi, hnames, hunique⟩ := h.heading c hc
  have hcolumn := noBlank_columnNames c hc
  refine ⟨i, heading, ?_, hi, hnames⟩
  rcases hmark with rfl | hmark
  · refine lastColumn?_eq hcolumn hi hnames fun j other hj hother hnames' => ?_
    exact absurd (hunique j other hother hnames') (by omega)
  · -- the heading with the mark names nothing, so the column is behind it
    cases i with
    | zero =>
      obtain rfl := Option.some.inj hi
      exact absurd hnames (not_names_mark hc hmark)
    | succ i =>
      refine lastColumn?_eq hcolumn hi hnames fun j other hj hother hnames' => ?_
      obtain ⟨j, rfl⟩ := Nat.exists_eq_add_of_lt (Nat.lt_of_le_of_lt (Nat.zero_le _) hj)
      rw [Nat.zero_add] at hother
      exact absurd (hunique (j + 1) other hother hnames') (by omega)

/-! ## Reading -/

/-- Two columns have two headings. -/
theorem Tabulates.exists_header {header : List String} {body : List (List String)}
    {texts : List (String → Option String)} (h : Tabulates header body texts) :
    ∃ first second more, header = first :: second :: more := by
  obtain ⟨i, heading, hi, hid, -⟩ := h.heading "id" (by decide)
  obtain ⟨j, heading', hj, huser, -⟩ := h.heading "user_id" (by decide)
  have hne : i ≠ j := by
    rintro rfl
    obtain rfl := Option.some.inj (hi.symm.trans hj)
    rw [names_iff (noBlank_columnNames _ (by decide))] at hid huser
    exact absurd (hid.symm.trans huser) (by decide)
  obtain ⟨hi', -⟩ := List.getElem?_eq_some_iff.mp hi
  obtain ⟨hj', -⟩ := List.getElem?_eq_some_iff.mp hj
  cases header with
  | nil => exact absurd hi' (Nat.not_lt_zero _)
  | cons first rest =>
    cases rest with
    | nil =>
      rw [List.length_singleton] at hi' hj'
      omega
    | cons second more => exact ⟨first, second, more, rfl⟩

/-- A row that holds its texts is read as them. -/
theorem Tabulates.tableRow_eq {first first' : String} {more : List String}
    {body : List (List String)} {texts : List (String → Option String)}
    (h : Tabulates (first :: more) body texts) (hmark : AfterMark first first')
    {fields : List String} {text : String → Option String}
    (hholds : Holds (first :: more) fields text) :
    fields ≠ [] ∧ tableRow (first' :: more) fields = Row.ofTexts text := by
  have hplace : ∀ c ∈ columnNames, ∃ i, lastColumn? (first' :: more) c = some i ∧
      fields[i]? = some ((text c).getD "") := by
    intro c hc
    obtain ⟨i, heading, hi, hheading, hnames⟩ := h.exists_place hmark hc
    exact ⟨i, hi, hholds c hc i heading hheading hnames⟩
  constructor
  · rintro rfl
    obtain ⟨i, -, hnone⟩ := hplace "id" (by decide)
    cases hnone
  · refine Row.ofColumns_congr fun c hc => ?_
    obtain ⟨i, hi, hfield⟩ := hplace c hc
    rw [hi, Option.bind_some, hfield, Option.bind_some]
    cases text c <;> rfl

/-- A table of texts is read as the rows of its texts, in strict mode or not. -/
theorem tableRows_of_tabulates (mode : Strictness) {delimiter : UInt8}
    (hm : (Delimited.byteMarks delimiter).Distinct) (hd : delimiter ≠ 0xef)
    {header : List String} {body : List (List String)} {texts : List (String → Option String)}
    (h : Tabulates header body texts) :
    tableRows mode delimiter (tableBytes delimiter (header :: body)) =
      .ok (texts.map Row.ofTexts) := by
  obtain ⟨first, second, more, rfl⟩ := h.exists_header
  obtain ⟨first', hmark, hdrop⟩ := dropMark_tableBytes hd first second more body
  have hrows : List.Forall₂ (fun fields text => fields ≠ [] ∧
      tableRow (first' :: second :: more) fields = Row.ofTexts text) body texts :=
    h.rows.imp fun _ _ => h.tableRow_eq hmark
  have hread : body.map (tableRow (first' :: second :: more)) = texts.map Row.ofTexts := by
    rw [← List.forall₂_eq_eq_eq, List.forall₂_map_left_iff, List.forall₂_map_right_iff]
    exact hrows.imp fun _ _ h => h.2
  have hbody : ∀ row ∈ body, row ≠ [] := by
    obtain ⟨hlength, hget⟩ := List.forall₂_iff_get.mp hrows
    intro row hrow
    obtain ⟨i, hi, rfl⟩ := List.getElem_of_mem hrow
    exact (hget i hi (hlength ▸ hi)).1
  have hne : ∀ row ∈ (first' :: second :: more) :: body, row ≠ [] :=
    List.forall_mem_cons.mpr ⟨List.cons_ne_nil _ _, hbody⟩
  rw [tableRows_of_dropMark mode hm hne hdrop, hread]

end Load

end LoginForest

/-
  Rows with faulty fields. Five columns can be faulty. The errors of a row are those of its faulty
  columns, one each and in one order (`errors_interpret`); the fields of these columns have their
  stand-ins, and every other field has the value that its own text denotes (`reads_interpret`). A
  fault stays where it is: rows that differ in one column give attempts that differ in that field
  at most, with the same errors about all others (`SameBut.interpret`,
  `SameBut.errorsBut_interpret`).
-/
import LoginForest.Attempt.Row
import Mathlib.Tactic.FinCases

namespace LoginForest

/-- The column that an error is about. -/
def Error.column? : Error → Option String
  | .field name _ _ => some name
  | _ => none

/-- The errors about other columns. -/
def errorsBut (column : String) (errors : List Error) : List Error :=
  errors.filter fun e => e.column? ≠ some column

/-- Two attempts that differ in the field of one column at most. -/
structure Attempt.SameBut (column : String) (a a' : Attempt) : Prop where
  id : column ≠ "id" → a.id = a'.id
  user : column ≠ "user_id" → a.user = a'.user
  success : column ≠ "success" → a.success = a'.success
  address : column ≠ "ip_address" → a.address = a'.address
  country : column ≠ "country" → a.country = a'.country
  city : column ≠ "city" → a.city = a'.city
  network : column ≠ "asn" → a.network = a'.network
  latitude : column ≠ "latitude" → a.latitude = a'.latitude
  longitude : column ≠ "longitude" → a.longitude = a'.longitude
  time : column ≠ "created_at" → a.time = a'.time

namespace Row

/-- Two rows that differ in the text of one column at most. -/
structure SameBut (column : String) (r r' : Row) : Prop where
  id : column ≠ "id" → r.id = r'.id
  user : column ≠ "user_id" → r.user = r'.user
  success : column ≠ "success" → r.success = r'.success
  address : column ≠ "ip_address" → r.address = r'.address
  country : column ≠ "country" → r.country = r'.country
  city : column ≠ "city" → r.city = r'.city
  network : column ≠ "asn" → r.network = r'.network
  latitude : column ≠ "latitude" → r.latitude = r'.latitude
  longitude : column ≠ "longitude" → r.longitude = r'.longitude
  time : column ≠ "created_at" → r.time = r'.time

/-! ## Faults -/

/-- The columns that can be faulty, in the order of their errors. -/
def checkedColumns : List String := ["id", "created_at", "success", "latitude", "longitude"]

def yesWords : List String := ["true", "t", "1", "yes", "y"]

def noWords : List String := ["false", "f", "0", "no", "n"]

/-- A coordinate that is given must be a finite number. -/
def isFaultyCoordinate (text : Option String) : Bool :=
  text.any fun s => !(Number.read? s).any Float.isFinite

/-- Whether a column of the row is faulty. -/
def isFaulty (r : Row) : String → Bool
  | "id" => r.id.isNone
  | "created_at" => (r.time.bind Time.Timestamp.read?).isNone
  | "success" => r.success.any fun s => !(yesWords ++ noWords).contains (Text.lowered s)
  | "latitude" => isFaultyCoordinate r.latitude
  | "longitude" => isFaultyCoordinate r.longitude
  | _ => false

/-- The error for a faulty column. -/
def issue (r : Row) : String → Error
  | "id" => .field "id" "" .missingId
  | "created_at" =>
    .field "created_at" (r.time.getD "") (if r.time.isNone then .missingTime else .badTime)
  | "success" => .field "success" (Text.lowered (r.success.getD "")) .notBoolean
  | "latitude" => .field "latitude" (r.latitude.getD "") .notFinite
  | column => .field column (r.longitude.getD "") .notFinite

/-- A missing outcome is a failure. -/
inductive DenotesOutcome : Option String → Bool → Prop
  | missing : DenotesOutcome none false
  | yes {s : String} : Text.lowered s ∈ yesWords → DenotesOutcome (some s) true
  | no {s : String} : Text.lowered s ∈ noWords → DenotesOutcome (some s) false

inductive DenotesCoordinate : Option String → Option Float → Prop
  | missing : DenotesCoordinate none none
  | number {s : String} {x : Float} : Number.read? s = some x → x.isFinite →
      DenotesCoordinate (some s) (some x)

/-- A field has its stand-in if its column is faulty, or else a value that its text denotes. -/
structure IsRead {α : Type} (faulty : Bool) (standIn : α) (Denotes : α → Prop) (v : α) : Prop where
  replaced : faulty → v = standIn
  denoted : faulty = false → Denotes v

/-- The attempt of a row, field by field. -/
structure Reads (index : Nat) (r : Row) (a : Attempt) : Prop where
  id : IsRead (r.isFaulty "id") ("row-" ++ decimalText index) (fun id => r.id = some id) a.id
  time : IsRead (r.isFaulty "created_at") .epoch
    (fun t => ∃ s, r.time = some s ∧ Time.Timestamp.read? s = some t) a.time
  success : IsRead (r.isFaulty "success") false (DenotesOutcome r.success) a.success
  latitude : IsRead (r.isFaulty "latitude") none (DenotesCoordinate r.latitude) a.latitude
  longitude : IsRead (r.isFaulty "longitude") none (DenotesCoordinate r.longitude) a.longitude
  address : a.address = r.address.map Address.normalize
  user : a.user = r.user
  country : a.country = r.country
  city : a.city = r.city
  network : a.network = r.network

/-! ## Fields -/

section Fields

variable {α : Type} {faulty : Bool} {standIn : α} {Denotes : α → Prop} {issue : Error}

/-- What is read of a text: a value of it and no error, or the stand-in and one error. -/
inductive Settles (standIn : α) (Denotes : α → Prop) (issue : Error) : Bool → α × List Error → Prop
  | read {v : α} : Denotes v → Settles standIn Denotes issue false (v, [])
  | replaced : Settles standIn Denotes issue true (standIn, [issue])

theorem Settles.isRead {result : α × List Error} (h : Settles standIn Denotes issue faulty result) :
    IsRead faulty standIn Denotes result.1 := by
  cases h with
  | read hv => exact ⟨fun hfaulty => (Bool.false_ne_true hfaulty).elim, fun _ => hv⟩
  | replaced => exact ⟨fun _ => rfl, fun hfaulty => (Bool.noConfusion hfaulty)⟩

theorem Settles.errors_eq {result : α × List Error}
    (h : Settles standIn Denotes issue faulty result) :
    result.2 = if faulty then [issue] else [] := by
  cases h <;> rfl

theorem settles_readId (index : Nat) (r : Row) :
    Settles ("row-" ++ decimalText index) (fun id => r.id = some id) (r.issue "id")
      (r.isFaulty "id") (readId index r.id) := by
  rw [isFaulty, issue]
  cases r.id with
  | none => exact .replaced
  | some id => exact .read rfl

theorem settles_readTime (r : Row) :
    Settles .epoch (fun t => ∃ s, r.time = some s ∧ Time.Timestamp.read? s = some t)
      (r.issue "created_at") (r.isFaulty "created_at") (readTime r.time) := by
  rw [isFaulty, issue]
  cases r.time with
  | none => exact .replaced
  | some s =>
    rw [readTime, Option.bind_some]
    cases hread : Time.Timestamp.read? s with
    | none => exact .replaced
    | some t => exact .read ⟨s, rfl, hread⟩

/-- The words that are read as yes or no. -/
theorem boolean?_eq (word : String) : boolean? word =
    if word ∈ yesWords then some true else if word ∈ noWords then some false else none := by
  simp only [boolean?, List.contains_iff_mem]
  rfl

theorem settles_readSuccess (r : Row) :
    Settles false (DenotesOutcome r.success) (r.issue "success") (r.isFaulty "success")
      (readSuccess r.success) := by
  rw [isFaulty, issue]
  cases r.success with
  | none => exact .read .missing
  | some s =>
    have hwords : (yesWords ++ noWords).contains (Text.lowered s) =
        decide (Text.lowered s ∈ yesWords ∨ Text.lowered s ∈ noWords) := by
      rw [List.contains_eq_mem, decide_eq_decide, List.mem_append]
    rw [readSuccess, boolean?_eq, Option.any_some, hwords]
    by_cases hyes : Text.lowered s ∈ yesWords
    · rw [if_pos hyes, decide_eq_true (.inl hyes)]
      exact .read (.yes hyes)
    · by_cases hno : Text.lowered s ∈ noWords
      · rw [if_neg hyes, if_pos hno, decide_eq_true (.inr hno)]
        exact .read (.no hno)
      · rw [if_neg hyes, if_neg hno, decide_eq_false (not_or.mpr ⟨hyes, hno⟩)]
        exact .replaced

theorem settles_readCoordinate (column : String) (text : Option String) :
    Settles none (DenotesCoordinate text) (.field column (text.getD "") .notFinite)
      (isFaultyCoordinate text) (readCoordinate column text) := by
  rw [isFaultyCoordinate]
  cases text with
  | none => exact .read .missing
  | some s =>
    rw [readCoordinate, coordinate?, Option.any_some]
    cases hread : Number.read? s with
    | none => exact .replaced
    | some x =>
      dsimp only [Option.any_some]
      cases hx : x.isFinite with
      | true => exact .read (DenotesCoordinate.number hread hx)
      | false => exact .replaced

end Fields

/-! ## Rows -/

variable {r r' : Row} {column : String}

/-- The fields of an attempt are read from the texts of their own columns. -/
theorem reads_interpret (index : Nat) (r : Row) : r.Reads index (r.interpret index).1 where
  id := (settles_readId index r).isRead
  time := (settles_readTime r).isRead
  success := (settles_readSuccess r).isRead
  latitude := (settles_readCoordinate "latitude" r.latitude).isRead
  longitude := (settles_readCoordinate "longitude" r.longitude).isRead
  address := rfl
  user := rfl
  country := rfl
  city := rfl
  network := rfl

theorem map_filter_cons (p : String → Bool) (f : String → Error) (c : String) (cs : List String) :
    ((c :: cs).filter p).map f = (if p c then [f c] else []) ++ (cs.filter p).map f := by
  cases h : p c with
  | true => rw [List.filter_cons_of_pos h]; rfl
  | false => rw [List.filter_cons_of_neg (by rw [h]; exact Bool.false_ne_true)]; rfl

/-- The errors of a row are those of its faulty columns. -/
theorem errors_interpret (index : Nat) (r : Row) :
    (r.interpret index).2 = (checkedColumns.filter r.isFaulty).map r.issue := by
  have herrors : (r.interpret index).2 = (readId index r.id).2 ++ (readTime r.time).2 ++
      (readSuccess r.success).2 ++ (readCoordinate "latitude" r.latitude).2 ++
        (readCoordinate "longitude" r.longitude).2 := rfl
  rw [herrors, (settles_readId index r).errors_eq, (settles_readTime r).errors_eq,
    (settles_readSuccess r).errors_eq, (settles_readCoordinate "latitude" r.latitude).errors_eq,
    (settles_readCoordinate "longitude" r.longitude).errors_eq]
  simp only [checkedColumns, map_filter_cons, List.filter_nil, List.map_nil, List.append_nil,
    List.append_assoc]
  rfl

theorem column?_issue (r : Row) {c : String} (h : c ∈ checkedColumns) :
    (r.issue c).column? = some c := by
  fin_cases h <;> rfl

theorem errorsBut_errors_interpret (index : Nat) (r : Row) (column : String) :
    errorsBut column (r.interpret index).2 =
      ((checkedColumns.filter (· ≠ column)).filter r.isFaulty).map r.issue := by
  rw [errors_interpret, errorsBut, List.filter_map, List.filter_filter, List.filter_filter]
  congr 1
  refine List.filter_congr fun c hc => ?_
  rw [Function.comp_apply, column?_issue r hc, Bool.and_comm]
  simp

/-- Columns that are written alike are faulty alike. -/
theorem SameBut.fault_eq (h : r.SameBut column r') {c : String} (hc : c ∈ checkedColumns)
    (hne : c ≠ column) : r.isFaulty c = r'.isFaulty c ∧ r.issue c = r'.issue c := by
  fin_cases hc
  · simp only [isFaulty, issue, h.id hne.symm, and_self]
  · simp only [isFaulty, issue, h.time hne.symm, and_self]
  · simp only [isFaulty, issue, h.success hne.symm, and_self]
  · simp only [isFaulty, issue, h.latitude hne.symm, and_self]
  · exact ⟨congrArg isFaultyCoordinate (h.longitude hne.symm),
      congrArg (fun text : Option String => Error.field "longitude" (text.getD "") .notFinite)
        (h.longitude hne.symm)⟩

/-- The errors about all other columns are the same. -/
theorem SameBut.errorsBut_interpret (h : r.SameBut column r') (index : Nat) :
    errorsBut column (r.interpret index).2 = errorsBut column (r'.interpret index).2 := by
  have hsame : ∀ c ∈ checkedColumns.filter (· ≠ column),
      r.isFaulty c = r'.isFaulty c ∧ r.issue c = r'.issue c := by
    intro c hc
    obtain ⟨hc, hne⟩ := List.mem_filter.mp hc
    exact h.fault_eq hc (of_decide_eq_true hne)
  rw [errorsBut_errors_interpret, errorsBut_errors_interpret,
    List.filter_congr fun c hc => (hsame c hc).1]
  exact List.map_congr_left fun c hc => (hsame c (List.mem_filter.mp hc).1).2

/-- All other fields are the same. -/
theorem SameBut.interpret (h : r.SameBut column r') (index : Nat) :
    (r.interpret index).1.SameBut column (r'.interpret index).1 where
  id hne := congrArg (fun text => (readId index text).1) (h.id hne)
  user := h.user
  success hne := congrArg (fun text => (readSuccess text).1) (h.success hne)
  address hne := congrArg (Option.map Address.normalize) (h.address hne)
  country := h.country
  city := h.city
  network := h.network
  latitude hne := congrArg (fun text => (readCoordinate "latitude" text).1) (h.latitude hne)
  longitude hne := congrArg (fun text => (readCoordinate "longitude" text).1) (h.longitude hne)
  time hne := congrArg (fun text => (readTime text).1) (h.time hne)

/-- A row is interpreted field by field: each checked column that is faulty has one error, in the
order of the columns, and the stand-in for a field; all other fields have the values of their
texts. A row that differs in one column gives an attempt that differs in that field at most, with
the same errors about other columns. -/
theorem interpret_fieldwise (index : Nat) (r : Row) :
    (r.interpret index).2 = (checkedColumns.filter r.isFaulty).map r.issue ∧
      r.Reads index (r.interpret index).1 ∧
      ∀ (column : String) (r' : Row), r.SameBut column r' →
        (r.interpret index).1.SameBut column (r'.interpret index).1 ∧
        errorsBut column (r.interpret index).2 = errorsBut column (r'.interpret index).2 :=
  ⟨errors_interpret index r, reads_interpret index r, fun _ _ h =>
    ⟨h.interpret index, h.errorsBut_interpret index⟩⟩

/-- A row with a name and a longitude. -/
def halfFilled : Row where
  id := none
  user := some "u1"
  success := some "Maybe"
  address := none
  country := none
  city := none
  network := none
  latitude := some "north"
  longitude := some "23.5"
  time := some "yesterday"

/-- An outcome that can be read takes the third of four errors away, and nothing else changes. -/
theorem interpret_fieldwise_halfFilled :
    let r' : Row := { halfFilled with success := some "YES" }
    halfFilled.SameBut "success" r' ∧
      (halfFilled.interpret 7).2 = [.field "id" "" .missingId,
        .field "created_at" "yesterday" .badTime, .field "success" "maybe" .notBoolean,
        .field "latitude" "north" .notFinite] ∧
      (halfFilled.interpret 7).1.id = "row-7" ∧ (halfFilled.interpret 7).1.time = .epoch ∧
      (r'.interpret 7).1.id = "row-7" ∧
      (r'.interpret 7).1.longitude = (halfFilled.interpret 7).1.longitude ∧
      errorsBut "success" (halfFilled.interpret 7).2 = errorsBut "success" (r'.interpret 7).2 := by
  intro r'
  have hsame : halfFilled.SameBut "success" r' := by
    constructor
    case success => exact fun hne => absurd rfl hne
    all_goals exact fun _ => rfl
  obtain ⟨herrors, hreads, hlocal⟩ := interpret_fieldwise 7 halfFilled
  obtain ⟨hfields, hothers⟩ := hlocal "success" r' hsame
  have hid : (halfFilled.interpret 7).1.id = "row-7" := hreads.id.replaced (by decide +kernel)
  refine ⟨hsame, ?_, hid, hreads.time.replaced (by decide +kernel), ?_, ?_, hothers⟩
  · have hcolumns : checkedColumns.filter halfFilled.isFaulty =
        ["id", "created_at", "success", "latitude"] := by decide +kernel
    rw [herrors, hcolumns]
    rfl
  · rw [← hfields.id (by decide), hid]
  · exact (hfields.longitude (by decide)).symm

end Row

end LoginForest

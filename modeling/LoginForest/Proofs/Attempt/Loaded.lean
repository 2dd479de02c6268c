/-
  Attempts that are loaded (`loaded_of_load`), whatever export they come from: their texts are
  trimmed and not empty, their address has no prefix length of a host, and their coordinates are
  finite.
-/
import LoginForest.Proofs.Address
import LoginForest.Proofs.Attempt.Entries
import LoginForest.Proofs.Attempt.Faults
import LoginForest.Proofs.Number.Plain
import LoginForest.Proofs.Scoring.Run

namespace LoginForest

/-- A text that is missing, or read from a field as it is. -/
def FilledField (t : Option String) : Prop := ∀ s, t = some s → Text.IsFilled s

theorem filledField_bind (t : Option String) : FilledField (t.bind Text.filled?) := by
  intro s h
  obtain ⟨s', -, h⟩ := Option.bind_eq_some_iff.mp h
  exact Text.isFilled_of_filled? h

/-- The text of a missing field is empty, and is missing again. -/
theorem FilledField.filled?_getD {t : Option String} (h : FilledField t) :
    Text.filled? (t.getD "") = t := by
  cases t with
  | none => decide
  | some s => exact h s rfl

namespace Json

theorem isFilled_enclosed {c d : Char} (hc : Text.isBlank c = false) (hd : Text.isBlank d = false)
    (cs : List Char) : Text.IsFilled (String.ofList (c :: cs ++ [d])) := by
  refine Text.isFilled_ofList (by simp) (Text.trimChars_of_ends (fun _ => ?_) fun _ => ?_)
  · rw [List.head_append_of_ne_nil (List.cons_ne_nil c cs)]
    exact hc
  · rw [List.getLast_append_singleton]
    exact hd

/-- The text of a value starts and ends with a visible character. -/
theorem isFilled_compact (v : Value) : Text.IsFilled v.compact := by
  unfold Value.compact
  cases v with
  | null => decide
  | bool b => cases b <;> decide
  | number n =>
    rw [Value.chars]
    rcases chars_number_cases n with ⟨l, hwell, hchars, -⟩ | ⟨hchars, -⟩
    · rw [hchars]
      exact LoginForest.Number.isFilled_chars hwell
    · rw [hchars]
      decide
  | text s => exact isFilled_enclosed (by decide) (by decide) _
  | list items => exact isFilled_enclosed (by decide) (by decide) _
  | record members => exact isFilled_enclosed (by decide) (by decide) _

end Json

namespace Row

/-- A row whose texts for an attempt are read from their fields as they are. -/
structure Filled (r : Row) : Prop where
  id : FilledField r.id
  user : FilledField r.user
  address : FilledField r.address
  country : FilledField r.country
  city : FilledField r.city
  network : FilledField r.network

theorem filled_ofColumns {text : String → Option String} (h : ∀ column, FilledField (text column)) :
    (ofColumns text).Filled :=
  ⟨h _, h _, h _, h _, h _, h _⟩

theorem filledField_valueText (v : Json.Value) : FilledField (valueText v) := by
  intro s h
  cases v with
  | null => cases h
  | text t => exact Text.isFilled_of_filled? h
  | bool b => exact Option.some.inj h ▸ Json.isFilled_compact _
  | number n => exact Option.some.inj h ▸ Json.isFilled_compact _
  | list items => exact Option.some.inj h ▸ Json.isFilled_compact _
  | record members => exact Option.some.inj h ▸ Json.isFilled_compact _

theorem filled_of_ofValue? {v : Json.Value} {r : Row} (h : ofValue? v = some r) : r.Filled := by
  cases v with
  | record members =>
    obtain rfl := Option.some.inj h
    refine filled_ofColumns fun column s hs => ?_
    obtain ⟨v, -, hv⟩ := Option.bind_eq_some_iff.mp hs
    exact filledField_valueText v s hv
  | _ => cases h

end Row

namespace Load

theorem filled_tableRow (header fields : List String) : (tableRow header fields).Filled :=
  Row.filled_ofColumns fun _ => filledField_bind _

theorem Entry.filled_of_row? {e : Entry} {r : Row} (h : e.row? = some r) : r.Filled := by
  cases e with
  | line b =>
    obtain ⟨v, -, hv⟩ := Option.bind_eq_some_iff.mp ((recordRow?_eq b).symm.trans h)
    exact Row.filled_of_ofValue? hv
  | fields header row =>
    obtain ⟨names, -, h⟩ := Option.bind_eq_some_iff.mp h
    obtain ⟨texts, -, h⟩ := Option.bind_eq_some_iff.mp h
    obtain rfl := Option.some.inj h
    exact filled_tableRow names texts

/-- The texts of all rows that are loaded. -/
theorem filled_of_rows {mode : Strictness} {format : Format} {content : Option Bytes}
    {loaded : List Row} (h : rows mode format content = .ok loaded) : ∀ r ∈ loaded, r.Filled := by
  intro r hr
  cases content with
  | none => cases format <;> cases h
  | some b =>
    rw [rows_eq_filterMap h] at hr
    obtain ⟨e, -, he⟩ := List.mem_filterMap.mp hr
    exact e.filled_of_row? he

end Load

/-- What an attempt is that can be loaded: its texts are read from their fields as they are, its
address has no prefix length of a host, and its coordinates are finite. -/
structure Attempt.Loaded (a : Attempt) : Prop where
  id : Text.IsFilled a.id
  user : FilledField a.user
  address : FilledField a.address
  normal : a.address.map Address.normalize = a.address
  country : FilledField a.country
  city : FilledField a.city
  network : FilledField a.network
  latitude : ∀ x, a.latitude = some x → x.isFinite
  longitude : ∀ x, a.longitude = some x → x.isFinite

namespace Row

theorem isFilled_readId (index : Nat) {id : Option String} (h : FilledField id) :
    Text.IsFilled (readId index id).1 := by
  cases id with
  | some id => exact h id rfl
  | none =>
    have hrow : Text.NoBlank ['r', 'o', 'w', '-'] := by
      intro c hc
      fin_cases hc <;> decide
    have hdigits : Text.NoBlank (Number.digitsOf index) := fun c hc =>
      Time.isBlank_of_isDigit (Number.allDigits_digitsOf index c hc)
    have hfilled := Text.isFilled_of_noBlank (List.append_ne_nil_of_left_ne_nil
      (List.cons_ne_nil _ _) (Number.digitsOf index)) (hrow.append hdigits)
    rw [String.ofList_append] at hfilled
    exact hfilled

theorem isFinite_readCoordinate {column : String} {t : Option String} {x : Float}
    (h : (readCoordinate column t).1 = some x) : x.isFinite := by
  have hread := (settles_readCoordinate column t).isRead
  rw [h] at hread
  cases hfaulty : isFaultyCoordinate t with
  | true => cases hread.replaced hfaulty
  | false =>
    cases hread.denoted hfaulty with
    | number _ hfinite => exact hfinite

theorem loaded_interpret {r : Row} (h : r.Filled) (index : Nat) :
    (r.interpret index).1.Loaded := by
  constructor
  case id => exact isFilled_readId index h.id
  case user => exact h.user
  case address =>
    intro s hs
    obtain ⟨t, ht, rfl⟩ := Option.map_eq_some_iff.mp hs
    exact Address.isFilled_normalize (h.address t ht)
  case normal =>
    show (r.address.map Address.normalize).map Address.normalize = r.address.map Address.normalize
    rw [Option.map_map]
    exact congrArg r.address.map (funext Address.normalize_normalize)
  case country => exact h.country
  case city => exact h.city
  case network => exact h.network
  case latitude => exact fun x => isFinite_readCoordinate
  case longitude => exact fun x => isFinite_readCoordinate

end Row

/-- Attempts that are loaded are what rows describe. -/
theorem exists_rows_of_load {mode : Strictness} {format : Format} {content : Option Bytes}
    {attempts : List Attempt} (h : load mode format content = .ok attempts) :
    ∃ rows, Load.rows mode format content = .ok rows ∧ interpretRows rows = attempts := by
  unfold load at h
  cases hrows : Load.rows mode format content with
  | error e =>
    rw [hrows] at h
    cases h
  | ok rows =>
    rw [hrows] at h
    exact ⟨rows, rfl, Except.ok.inj h⟩

/-- What holds of all attempts that are loaded. -/
theorem loaded_of_load {mode : Strictness} {format : Format} {content : Option Bytes}
    {attempts : List Attempt} (h : load mode format content = .ok attempts) :
    ∀ a ∈ attempts, a.Loaded := by
  obtain ⟨rows, hrows, rfl⟩ := exists_rows_of_load h
  intro a ha
  obtain ⟨i, hi, rfl⟩ := List.mem_mapIdx.mp ha
  exact Row.loaded_interpret (Load.filled_of_rows hrows _ (List.getElem_mem hi)) i

end LoginForest

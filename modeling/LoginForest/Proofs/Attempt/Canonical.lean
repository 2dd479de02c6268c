/-
  What is loaded is in one form (`Attempt.Canonical`), whatever file it comes from: no text of an
  attempt is empty or has blanks at its ends, its address is as it would be normalized, and its
  coordinates are numbers. There is one attempt for each entry of the file that can be read
  (`Entry.Readable`), in the order of the entries (`load_canonical`). So an address that is not
  missing is not understood as missing, and coordinates have stand-ins just where they are missing.
-/
import LoginForest.Proofs.Attempt.Loaded
import LoginForest.Proofs.Encoding

namespace LoginForest

/-! ## Attempts -/

namespace Attempt

/-- The texts that an attempt has. -/
def texts (a : Attempt) : List String :=
  a.id :: [a.user, a.address, a.country, a.city, a.network].reduceOption

/-- An attempt in the form that loading gives. -/
structure Canonical (a : Attempt) : Prop where
  texts : ∀ s ∈ a.texts, Text.IsTrimmed s
  address : ∀ s, a.address = some s → Address.normalize s = s
  latitude : ∀ x, a.latitude = some x → x.isFinite
  longitude : ∀ x, a.longitude = some x → x.isFinite

theorem Loaded.canonical {a : Attempt} (h : a.Loaded) : a.Canonical where
  texts s hs := by
    rcases List.mem_cons.mp hs with rfl | hs
    · exact h.id.isTrimmed
    · rw [List.reduceOption_mem_iff] at hs
      simp only [List.mem_cons, List.not_mem_nil, or_false] at hs
      rcases hs with hs | hs | hs | hs | hs
      · exact (h.user s hs.symm).isTrimmed
      · exact (h.address s hs.symm).isTrimmed
      · exact (h.country s hs.symm).isTrimmed
      · exact (h.city s hs.symm).isTrimmed
      · exact (h.network s hs.symm).isTrimmed
  address s hs := by
    have hnormal := h.normal
    rw [hs, Option.map_some] at hnormal
    exact Option.some.inj hnormal
  latitude := h.latitude
  longitude := h.longitude

namespace Canonical

variable {a : Attempt}

/-- Only a missing address is understood as missing. -/
theorem address_recovery [Elementary] (h : a.Canonical) :
    a.recovery.address = .missing ↔ a.address = none := by
  refine (Address.isFeature a.address).missing.trans (or_iff_left fun hempty => ?_)
  have hmem : "" ∈ a.texts :=
    List.mem_cons_of_mem _ (List.reduceOption_mem_iff.mpr (by rw [hempty]; simp))
  exact (h.texts "" hmem).ne rfl

end Canonical

end Attempt

/-- Only a missing coordinate has a stand-in. -/
theorem isNone_finite?_iff {x : Option Float} (h : ∀ y, x = some y → y.isFinite) :
    (finite? x).isNone ↔ x = none := by
  cases x with
  | none => exact iff_of_true rfl rfl
  | some y => simp [finite?_of_isFinite (h y rfl)]

/-! ## Loads -/

/-- All attempts that are loaded are in one form, one for each entry that can be read, in the order
of the entries. In their features, an address is understood as missing and a coordinate has a
stand-in just where it is missing. -/
theorem load_canonical [Elementary] {mode : Strictness} {format : Format} {content : Bytes}
    {attempts : List Attempt} (h : load mode format (some content) = .ok attempts) :
    (∀ a ∈ attempts, a.Canonical) ∧
      (∃ rows, ((Load.entries format content).filter (·.Readable)).map Load.Entry.row? =
        rows.map some ∧ attempts = interpretRows rows) ∧
      attempts.length = ((Load.entries format content).filter (·.Readable)).length ∧
      ∀ (i : Nat) (a : Attempt), attempts[i]? = some a → ∃ r,
        (Features.ofAttempts attempts).recoveries[i]? = some r ∧
          (r.address = .missing ↔ a.address = none) ∧
          (r.latitude ↔ a.latitude = none) ∧ (r.longitude ↔ a.longitude = none) := by
  have hcanonical : ∀ a ∈ attempts, a.Canonical := fun a ha => (loaded_of_load h a ha).canonical
  obtain ⟨rows, hrows, rfl⟩ := exists_rows_of_load h
  have hread := Load.map_row?_readable hrows
  refine ⟨hcanonical, ⟨rows, hread, rfl⟩, ?_, fun i a ha => ?_⟩
  · have hlength := congrArg List.length hread
    rw [List.length_map, List.length_map] at hlength
    rw [interpretRows, List.length_mapIdx, hlength]
  · have ha' := hcanonical a (List.mem_of_getElem? ha)
    refine ⟨a.recovery, ?_, ha'.address_recovery, ?_, ?_⟩
    · rw [Features.ofAttempts, List.getElem?_map, ha, Option.map_some]
    · exact isNone_finite?_iff ha'.latitude
    · exact isNone_finite?_iff ha'.longitude

/-- A table of three rows, the second of which is no text. There are blanks around a text and around
the address of a host. -/
def paddedTable : Bytes :=
  Bytes.ofText "id,ip_address,latitude\n a , 10.0.0.1/32 ,1.5\n" ++
    0xff :: Bytes.ofText ",,\n,,north\n"

/-- Two attempts are loaded from its three rows, the second one without an address. -/
theorem load_canonical_paddedTable :
    (Load.entries .commaSeparated paddedTable).length = 3 ∧ ∃ attempts,
      load .lenient .commaSeparated (some paddedTable) = .ok attempts ∧
      (∀ a ∈ attempts, a.Canonical) ∧ attempts.length = 2 ∧
      attempts.map (fun a => (a.id, a.address)) =
        [("a", some "10.0.0.1"), ("row-1", none)] ∧
      ∃ r, (Features.ofAttempts attempts).recoveries[1]? = some r ∧ r.address = .missing := by
  refine ⟨by decide +kernel, ?_⟩
  have hload : (load .lenient .commaSeparated (some paddedTable)).toOption.map
      (·.map fun a => (a.id, a.address)) = some [("a", some "10.0.0.1"), ("row-1", none)] := by
    decide +kernel
  have hentries : ((Load.entries .commaSeparated paddedTable).filter (·.Readable)).length = 2 := by
    decide +kernel
  cases hattempts : load .lenient .commaSeparated (some paddedTable) with
  | error e =>
    rw [hattempts] at hload
    cases hload
  | ok attempts =>
    rw [hattempts] at hload
    have hpairs := Option.some.inj hload
    obtain ⟨hcanonical, -, hlength, hrecovery⟩ := load_canonical hattempts
    refine ⟨attempts, rfl, hcanonical, hlength.trans hentries, hpairs, ?_⟩
    have hsecond := congrArg (·[1]?) hpairs
    rw [List.getElem?_map] at hsecond
    obtain ⟨a, ha, hpair⟩ := Option.map_eq_some_iff.mp hsecond
    obtain ⟨r, hr, haddress, -⟩ := hrecovery 1 a ha
    exact ⟨r, hr, haddress.mpr (congrArg Prod.snd hpair)⟩

end LoginForest

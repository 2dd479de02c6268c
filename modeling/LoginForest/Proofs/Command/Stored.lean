/-
  What is stored is found again. A file that is stored takes the place of the one that was there
  and leaves all others as they were; so of several outputs at different places each is found
  under its path (`find_keepAll_of_mem`), and nothing else has changed (`find_keepAll_of_not_mem`).
-/
import LoginForest.Proofs.Command.Quiet

namespace LoginForest.Command

def Place.isFile : Place → Bool
  | .file _ => true
  | .folder | .outside => false

namespace Folder

/-! ## One file -/

section Lookup

variable {name other : String} {content : Bytes} {files : List (String × Bytes)}

theorem lookup_replaced (h : (files.lookup name).isSome) :
    (files.map fun (n, b) => if n = name then (n, content) else (n, b)).lookup name =
      some content := by
  induction files with
  | nil => cases h
  | cons file files ih =>
    obtain ⟨n, b⟩ := file
    by_cases hn : n = name
    · simp [hn]
    · have hne : (name == n) = false := by simpa using Ne.symm hn
      rw [List.lookup_cons, hne] at h
      rw [List.map_cons]
      simp only [hn, if_false]
      rw [List.lookup_cons, hne]
      exact ih h

theorem lookup_replaced_of_ne (h : other ≠ name) :
    (files.map fun (n, b) => if n = name then (n, content) else (n, b)).lookup other =
      files.lookup other := by
  induction files with
  | nil => rfl
  | cons file files ih =>
    obtain ⟨n, b⟩ := file
    by_cases hn : n = name
    · have hne : (other == n) = false := by simpa [hn] using h
      simp only [List.map_cons, hn, if_true]
      rw [List.lookup_cons, List.lookup_cons, ← hn, hne]
      simpa [hn] using ih
    · simp only [List.map_cons, hn, if_false]
      rw [List.lookup_cons, List.lookup_cons, ih]

end Lookup

theorem get?_put (name : String) (content : Bytes) (f : Folder) :
    (f.put name content).get? name = some content := by
  unfold put get?
  split
  case isTrue h => exact lookup_replaced h
  case isFalse h =>
    rw [List.lookup_append, Option.not_isSome_iff_eq_none.mp h]
    simp

theorem get?_put_of_ne {name other : String} (h : other ≠ name) (content : Bytes) (f : Folder) :
    (f.put name content).get? other = f.get? other := by
  unfold put get?
  split
  case isTrue => exact lookup_replaced_of_ne h
  case isFalse =>
    have hne : (other == name) = false := by simpa using h
    rw [List.lookup_append, List.lookup_cons, hne]
    simp

theorem store?_eq_some {path : String} {content : Bytes} {f f' : Folder}
    (h : f.store? path content = some f') :
    ∃ name, Place.ofPath path = .file name ∧ f' = f.put name content := by
  unfold store? at h
  split at h
  case h_1 name hname => exact ⟨name, hname, (Option.some.inj h).symm⟩
  case h_2 => cases h

/-- What is stored is found under its path. -/
theorem find_store? {path : String} {content : Bytes} {f f' : Folder}
    (h : f.store? path content = some f') : f'.find path = .file content := by
  obtain ⟨name, hname, rfl⟩ := store?_eq_some h
  unfold find
  rw [hname]
  dsimp only
  rw [get?_put]

/-- What is at another place is found as before. -/
theorem find_store?_of_ne {path other : String} {content : Bytes} {f f' : Folder}
    (h : f.store? path content = some f') (hne : Place.ofPath other ≠ Place.ofPath path) :
    f'.find other = f.find other := by
  obtain ⟨name, hname, rfl⟩ := store?_eq_some h
  unfold find
  cases hother : Place.ofPath other with
  | file name' =>
    have hname' : name' ≠ name := by
      rintro rfl
      exact hne (hother.trans hname.symm)
    dsimp only
    rw [get?_put_of_ne hname']
  | folder => rfl
  | outside => rfl

/-! ## Several outputs -/

/-- The places of those outputs that are asked for. -/
def places (outputs : List (Option String × Bytes)) : List Place :=
  outputs.filterMap fun output => output.1.map Place.ofPath

/-- Outputs change nothing at other places, also when one of them cannot be stored. -/
theorem find_keepAll_of_not_mem {outputs : List (Option String × Bytes)} {other : String}
    {f f' : Folder} {r : Except Error Unit} (h : f.keepAll outputs = (r, f'))
    (hother : Place.ofPath other ∉ places outputs) : f'.find other = f.find other := by
  fun_induction keepAll outputs f with
  | case1 f =>
    obtain ⟨-, rfl⟩ := Prod.mk.inj h
    rfl
  | case2 content outputs f ih => exact ih h hother
  | case3 path content outputs f f₁ hstore ih =>
    have hne : Place.ofPath other ≠ Place.ofPath path := fun heq =>
      hother (heq ▸ List.mem_cons_self)
    rw [ih h fun hmem => hother (List.mem_cons_of_mem _ hmem), find_store?_of_ne hstore hne]
  | case4 path content outputs f hstore =>
    obtain ⟨-, rfl⟩ := Prod.mk.inj h
    rfl

/-- Outputs at different places are all found once they are stored. -/
theorem find_keepAll_of_mem {outputs : List (Option String × Bytes)} {path : String}
    {content : Bytes} {f f' : Folder} (h : f.keepAll outputs = (.ok (), f'))
    (hplaces : (places outputs).Nodup) (hmem : (some path, content) ∈ outputs) :
    f'.find path = .file content := by
  fun_induction keepAll outputs f with
  | case1 f => cases hmem
  | case2 content' outputs f ih =>
    rcases List.mem_cons.mp hmem with heq | htail
    · cases heq
    · exact ih h hplaces htail
  | case3 path' content' outputs f f₁ hstore ih =>
    obtain ⟨hfirst, hrest⟩ := List.nodup_cons.mp hplaces
    rcases List.mem_cons.mp hmem with heq | htail
    · obtain ⟨hpath, rfl⟩ := Prod.mk.inj heq
      obtain rfl := Option.some.inj hpath
      rw [find_keepAll_of_not_mem h hfirst, find_store? hstore]
    · exact ih h hrest htail
  | case4 path' content' outputs f hstore => cases h

/-- Outputs can be stored where their paths lead to files. -/
theorem keepAll_ok (f : Folder) {outputs : List (Option String × Bytes)}
    (h : ∀ place ∈ places outputs, place.isFile) : ∃ f', f.keepAll outputs = (.ok (), f') := by
  fun_induction keepAll outputs f with
  | case1 f => exact ⟨f, rfl⟩
  | case2 content outputs f ih => exact ih h
  | case3 path content outputs f f' hstore ih =>
    exact ih fun place hplace => h place (List.mem_cons_of_mem _ hplace)
  | case4 path content outputs f hstore =>
    have hfile := h (Place.ofPath path) List.mem_cons_self
    unfold store? at hstore
    cases hplace : Place.ofPath path with
    | file name =>
      rw [hplace] at hstore
      cases hstore
    | folder =>
      rw [hplace] at hfile
      cases hfile
    | outside =>
      rw [hplace] at hfile
      cases hfile

/-- What is stored well was computed before. -/
theorem finish_eq_ok_iff {α : Type} {outputs : α → List (Option String × Bytes)}
    {e : Except Error α} {f f' : Folder} : f.finish outputs e = (.ok (), f') ↔
      ∃ a, e = .ok a ∧ f.keepAll (outputs a) = (.ok (), f') := by
  cases e with
  | error e =>
    constructor
    · intro h
      cases h
    · rintro ⟨a, h, -⟩
      cases h
  | ok a =>
    constructor
    · intro h
      exact ⟨a, rfl, h⟩
    · rintro ⟨a', h, hkeep⟩
      obtain rfl := Except.ok.inj h
      exact hkeep

end Folder

end LoginForest.Command

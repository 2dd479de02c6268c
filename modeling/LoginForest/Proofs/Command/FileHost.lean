/-
  Hosts whose files can be seen. What is asked of such a host is little: finding a file and
  printing leave all files as they are, storing one leaves those at other places as they are, and
  a file that could be stored is there as a whole. A file that could not be stored may have been
  left in any state. On every such host the steps of a command that only look at files are known
  from what is found (`FileHost.Reads`), and those that store files, one after the other, from
  what they store (`FileHost.Wrote`).
-/
import LoginForest.Proofs.Command.Stored

namespace LoginForest.Command

/-- The bundle in a file that was found. -/
def Found.bundle : Found → Except Error Bundle
  | .file b => Bundle.load (some b)
  | .nothing => Bundle.load none
  | .other => .error .malformed

/-- What paths lead to. -/
abbrev View := String → Found

namespace View

/-- The attempts in the file at a path. -/
def attempts (v : View) (path : String) : Except Error (List Attempt) :=
  load .lenient (.ofPath path) (v path).content?

/-- The settings in the file at a path, the standard ones without a path. -/
def settings (v : View) : Option String → Except Error Settings
  | none => .ok .standard
  | some path => Settings.ofFile path (v path).content?

/-- The bundle in the file at a path. -/
def bundle (v : View) (path : String) : Except Error Bundle := (v path).bundle

end View

/-- A host with files at places, and where its paths lead. -/
structure FileHost (σ : Type) [Host (StateM σ)] where
  Place : Type
  place : String → Place
  files : σ → Place → Found
  find_eq : ∀ path s, ((Host.find path : StateM σ Found).run s).1 = files s (place path)
  files_find : ∀ path s, files ((Host.find path : StateM σ Found).run s).2 = files s
  files_print : ∀ text s, files ((Host.print text : StateM σ Unit).run s).2 = files s
  files_store : ∀ path content s p, p ≠ place path →
    files ((Host.store path content : StateM σ Bool).run s).2 p = files s p
  stored : ∀ path content s, ((Host.store path content : StateM σ Bool).run s).1 = true →
    files ((Host.store path content : StateM σ Bool).run s).2 (place path) = .file content

namespace FileHost

variable {σ : Type} [Host (StateM σ)] (h : FileHost σ) {α β : Type}

/-- What is found under each path. -/
def view (files : h.Place → Found) : View := fun path => files (h.place path)

/-! ## Looking at files -/

/-- An action that ends like this wherever these are the files, and leaves them as they are. -/
def Reads (files : h.Place → Found) (x : Action (StateM σ) α) (e : Except Error α) : Prop :=
  ∀ s, h.files s = files → (ending x s).1 = e ∧ h.files (ending x s).2 = files

namespace Reads

variable {h} {files : h.Place → Found}

theorem bind {x : Action (StateM σ) α} {g : α → Action (StateM σ) β} {e : Except Error α}
    {k : α → Except Error β} (hx : h.Reads files x e) (hg : ∀ a, h.Reads files (g a) (k a)) :
    h.Reads files (x >>= g) (e >>= k) := by
  intro s hs
  obtain ⟨hend, hfiles⟩ := hx s hs
  rw [ending_bind]
  rcases hr : ending x s with ⟨a | a, s'⟩
  all_goals
    rw [hr] at hend hfiles
    subst hend
  · exact ⟨rfl, hfiles⟩
  · exact hg a s' hfiles

theorem result (e : Except Error α) : h.Reads files (result e) e := fun _ hs => ⟨rfl, hs⟩

theorem pure (a : α) : h.Reads files (pure a) (.ok a) := fun _ hs => ⟨rfl, hs⟩

theorem say (text : String) : h.Reads files (say text) (.ok ()) := fun s hs =>
  ⟨rfl, (h.files_print text s).trans hs⟩

theorem find (path : String) : h.Reads files (find path) (.ok (h.view files path)) := fun s hs =>
  ⟨congrArg Except.ok ((h.find_eq path s).trans (congrFun hs _)), (h.files_find path s).trans hs⟩

theorem announce {x : Action (StateM σ) α} {e : Except Error α} (hx : h.Reads files x e)
    (what : String) (detail : α → String) : h.Reads files (Command.announce what detail x) e := by
  have hreads : h.Reads files (Command.announce what detail x)
      (.ok () >>= fun _ => e >>= fun a => .ok () >>= fun _ => .ok a) :=
    (say _).bind fun _ => hx.bind fun a => (say _).bind fun _ => pure a
  cases e <;> exact hreads

theorem loadAttempts (path : String) :
    h.Reads files (loadAttempts path) ((h.view files).attempts path) :=
  (find (h := h) path).bind fun found => result (load .lenient (.ofPath path) found.content?)

theorem loadSettings (path : Option String) :
    h.Reads files (loadSettings path) ((h.view files).settings path) := by
  cases path with
  | none => exact pure _
  | some path => exact (find path).bind fun found => result (Settings.ofFile path found.content?)

theorem loadBundle (path : String) :
    h.Reads files (loadBundle path) ((h.view files).bundle path) := by
  refine (find (h := h) path).bind (k := Found.bundle) fun found => ?_
  cases found <;> exact result _

end Reads

/-! ## Storing files -/

/-- Storing files one after the other, up to the first that cannot be stored: how it ends, and
the files before and afterwards. -/
inductive Wrote : List (String × Bytes) → (h.Place → Found) → Except Error Unit →
    (h.Place → Found) → Prop
  | done (files) : Wrote [] files (.ok ()) files
  | stored {path content outputs files files' r files''} :
    files' (h.place path) = .file content →
    (∀ p, p ≠ h.place path → files' p = files p) → Wrote outputs files' r files'' →
    Wrote ((path, content) :: outputs) files r files''
  | failed {path content outputs files files'} :
    (∀ p, p ≠ h.place path → files' p = files p) →
    Wrote ((path, content) :: outputs) files (.error .file) files'

/-- An action that stores these files. -/
def Writes (x : Action (StateM σ) Unit) (outputs : List (String × Bytes)) : Prop :=
  ∀ s, h.Wrote outputs (h.files s) (ending x s).1 (h.files (ending x s).2)

/-- The outputs that are asked for. -/
def asked (outputs : List (Option String × Bytes)) : List (String × Bytes) :=
  outputs.filterMap fun output => output.1.map (·, output.2)

theorem map_asked (outputs : List (Option String × Bytes)) :
    (asked outputs).map (·.1) = (outputs.map (·.1)).reduceOption := by
  unfold asked List.reduceOption
  rw [List.map_filterMap, List.filterMap_map]
  congr 1
  funext output
  exact (Option.map_map ..).trans (congrFun Option.map_id output.1)

theorem writes_sayLines (lines : List String) : h.Writes (sayLines lines) [] := by
  intro s
  have hfiles : h.files (ending (sayLines lines : Action (StateM σ) Unit) s).2 = h.files s :=
    h.files_print _ s
  rw [hfiles]
  exact .done _

theorem writes_sayLines_bind {g : Unit → Action (StateM σ) Unit}
    {outputs : List (String × Bytes)} (lines : List String) (hg : h.Writes (g ()) outputs) :
    h.Writes (sayLines lines >>= g) outputs := by
  intro s
  have hfiles : h.files (ending (sayLines lines : Action (StateM σ) Unit) s).2 = h.files s :=
    h.files_print _ s
  rw [← hfiles]
  exact hg _

/-- A file is stored before those that are stored by the rest of an action. -/
theorem writes_store_bind {what : String} {path : Option String} {content : Unit → Bytes}
    {g : Unit → Action (StateM σ) Unit} {outputs : List (Option String × Bytes)}
    (hg : h.Writes (g ()) (asked outputs)) :
    h.Writes (store what path content >>= g) (asked ((path, content ()) :: outputs)) := by
  cases path with
  | none => exact hg
  | some path =>
    intro s
    have hother := h.files_store path (content ()) s
    have hstored := h.stored path (content ()) s
    have hend : ending (store what (some path) content >>= g) s =
        (fun p : Bool × σ => ending ((if p.1 then
          sayLines [Layout.success (what ++ " → " ++ path)] else result (.error .file)) >>= g) p.2)
          ((Host.store path (content ()) : StateM σ Bool).run s) := rfl
    rw [hend]
    rcases hstore : (Host.store path (content ()) : StateM σ Bool).run s with ⟨_ | _, s'⟩
    all_goals rw [hstore] at hother hstored
    · exact .failed hother
    · exact .stored (hstored rfl) hother (h.writes_sayLines_bind _ hg s')

/-! ## Actions that look first and store then -/

/-- How an action ends that looks at files first and then stores those it has prepared. -/
inductive Ends : Except Error (List (String × Bytes)) → (h.Place → Found) → Except Error Unit →
    (h.Place → Found) → Prop
  | refused (e files) : Ends (.error e) files (.error e) files
  | wrote {outputs files r files'} : h.Wrote outputs files r files' →
    Ends (.ok outputs) files r files'

/-- An action that ends so wherever these are the files, with these outputs of what it computes. -/
def Prepares (files : h.Place → Found) (x : Action (StateM σ) Unit)
    (outputs : α → List (String × Bytes)) (computed : Except Error α) : Prop :=
  ∀ s, h.files s = files →
    h.Ends (computed.map outputs) files (ending x s).1 (h.files (ending x s).2)

section Prepares

variable {h} {files : h.Place → Found} {x : Action (StateM σ) β}
  {g : β → Action (StateM σ) Unit}

theorem Writes.prepares {x : Action (StateM σ) Unit} {outputs : α → List (String × Bytes)} {a : α}
    (hx : h.Writes x (outputs a)) : h.Prepares files x outputs (.ok a) := by
  rintro s rfl
  exact .wrote (hx s)

/-- What an action finds out before the rest of it. -/
theorem Reads.prepares_bind {e : Except Error β} {outputs : α → List (String × Bytes)}
    {k : β → Except Error α} (hx : h.Reads files x e)
    (hg : ∀ b, h.Prepares files (g b) outputs (k b)) :
    h.Prepares files (x >>= g) outputs (e >>= k) := by
  intro s hs
  obtain ⟨hend, hfiles⟩ := hx s hs
  rw [ending_bind]
  rcases hr : ending x s with ⟨a | a, s'⟩
  all_goals
    rw [hr] at hend hfiles
    subst hend
  · dsimp only
    rw [hfiles]
    exact .refused a files
  · exact hg a s' hfiles

theorem prepares_sayLines_bind {g : Unit → Action (StateM σ) Unit} {e : Except Error α}
    {outputs : α → List (String × Bytes)} (lines : List String)
    (hg : h.Prepares files (g ()) outputs e) : h.Prepares files (sayLines lines >>= g) outputs e :=
  Reads.prepares_bind (e := .ok ()) (k := fun _ => e) (.say _) fun _ => hg

/-- What an action finds out last. -/
theorem Reads.prepares_last {e : Except Error β} {outputs : β → List (String × Bytes)}
    (hx : h.Reads files x e) (hg : ∀ b, h.Writes (g b) (outputs b)) :
    h.Prepares files (x >>= g) outputs e := by
  have hprepares := hx.prepares_bind (k := .ok) fun b => (hg b).prepares
  cases e <;> exact hprepares

end Prepares

/-! ## What is left -/

/-- Files that are complete, each at its place unless this is the place of a later one or one of
the others. -/
def Complete (outputs : List (String × Bytes)) (others : List h.Place)
    (files : h.Place → Found) : Prop :=
  ∀ before path content after, outputs = before ++ (path, content) :: after →
    (∀ output ∈ after, h.place output.1 ≠ h.place path) → h.place path ∉ others →
      files (h.place path) = .file content

/-- One file could not be stored: those before it are complete, unless one is at its place, and
those behind it were not touched. -/
def StoppedAt (outputs : List (String × Bytes)) (files files' : h.Place → Found) : Prop :=
  ∃ before path content after, outputs = before ++ (path, content) :: after ∧
    h.Complete before [h.place path] files' ∧
    ∀ p, (∀ output ∈ before, p ≠ h.place output.1) → p ≠ h.place path → files' p = files p

variable {h} {outputs : List (String × Bytes)} {files files' : h.Place → Found}
  {r : Except Error Unit}

theorem Complete.cons {path : String} {content : Bytes} {others : List h.Place}
    (hfirst : (∀ output ∈ outputs, h.place output.1 ≠ h.place path) → h.place path ∉ others →
      files (h.place path) = .file content) (hrest : h.Complete outputs others files) :
    h.Complete ((path, content) :: outputs) others files := by
  intro before path' content' after heq
  cases before with
  | nil =>
    obtain ⟨hpair, rfl⟩ := List.cons.inj heq
    obtain ⟨rfl, rfl⟩ := Prod.mk.inj hpair
    exact hfirst
  | cons output before => exact hrest before path' content' after (List.cons.inj heq).2

/-- Storing files changes nothing at other places. -/
theorem Wrote.files_eq (hw : h.Wrote outputs files r files') {p : h.Place}
    (hp : ∀ output ∈ outputs, p ≠ h.place output.1) : files' p = files p := by
  induction hw with
  | done files => rfl
  | stored _ hothers _ ih =>
    rw [ih fun output hmem => hp output (List.mem_cons_of_mem _ hmem)]
    exact hothers p (hp _ List.mem_cons_self)
  | failed hothers => exact hothers p (hp _ List.mem_cons_self)

/-- Storing files ends well with all of them complete, or stops at one of them. -/
theorem Wrote.complete_or_stopped (hw : h.Wrote outputs files r files') :
    (r = .ok () ∧ h.Complete outputs [] files') ∨
      (r = .error .file ∧ h.StoppedAt outputs files files') := by
  induction hw with
  | done files =>
    refine .inl ⟨rfl, fun before path content after heq => ?_⟩
    simp at heq
  | @stored path content outputs files files₁ r files' hfound hothers hrest ih =>
    rcases ih with ⟨hr, hcomplete⟩ | ⟨hr, before, path', content', after, rfl, hbefore, hother⟩
    · refine .inl ⟨hr, hcomplete.cons fun hlater _ => ?_⟩
      rw [hrest.files_eq fun output hmem => (hlater output hmem).symm, hfound]
    · refine .inr ⟨hr, (path, content) :: before, path', content', after, rfl,
        hbefore.cons fun hlater hpath => ?_, fun p hp hp' => ?_⟩
      · rw [List.mem_singleton] at hpath
        rw [hother _ (fun output hmem => (hlater output hmem).symm) hpath, hfound]
      · rw [hother p (fun output hmem => hp output (List.mem_cons_of_mem _ hmem)) hp',
          hothers p (hp _ List.mem_cons_self)]
  | @failed path content outputs files files' hothers =>
    refine .inr ⟨rfl, [], path, content, outputs, rfl, fun before _ _ _ heq => ?_,
      fun p _ hp => hothers p hp⟩
    simp at heq

/-- What an action does to files that only stores what it has prepared: nothing at other places
than those of its outputs; nothing at all if it could prepare none; and otherwise it ends well
with all of them complete, or stops at one of them. -/
structure Effects (h : FileHost σ) (paths : List String)
    (prepared : Except Error (List (String × Bytes))) (files : h.Place → Found)
    (r : Except Error Unit) (files' : h.Place → Found) : Prop where
  others : ∀ p, (∀ path ∈ paths, p ≠ h.place path) → files' p = files p
  refused : ∀ e, prepared = .error e → r = .error e ∧ files' = files
  stored : ∀ outputs, prepared = .ok outputs → outputs.map (·.1) = paths ∧
    ((r = .ok () ∧ h.Complete outputs [] files') ∨
      (r = .error .file ∧ h.StoppedAt outputs files files'))

theorem Ends.effects {prepared : Except Error (List (String × Bytes))} {paths : List String}
    (he : h.Ends prepared files r files')
    (hpaths : ∀ outputs, prepared = .ok outputs → outputs.map (·.1) = paths) :
    h.Effects paths prepared files r files' := by
  cases he with
  | refused e files =>
    refine ⟨fun p _ => rfl, ?_, ?_⟩
    · rintro e' ⟨⟩
      exact ⟨rfl, rfl⟩
    · rintro outputs ⟨⟩
  | @wrote outputs _ _ _ hwrote =>
    have hmap := hpaths outputs rfl
    refine ⟨fun p hp => hwrote.files_eq fun output hmem => ?_, ?_, ?_⟩
    · exact hp output.1 (hmap ▸ List.mem_map_of_mem hmem)
    · rintro e ⟨⟩
    · rintro _ ⟨⟩
      exact ⟨hmap, hwrote.complete_or_stopped⟩

end FileHost

/-! ## Sessions -/

namespace Folder

/-- What is at a place of a folder. -/
def foundAt (f : Folder) : Place → Found
  | .file name => (f.get? name).elim .nothing .file
  | .folder => .other
  | .outside => .nothing

theorem find_eq_foundAt (f : Folder) (path : String) :
    f.find path = f.foundAt (Place.ofPath path) := by
  unfold find Folder.foundAt
  cases Place.ofPath path with
  | file name =>
    dsimp only
    cases f.get? name <;> rfl
  | folder => rfl
  | outside => rfl

theorem foundAt_store?_of_ne {path : String} {content : Bytes} {f f' : Folder} {p : Place}
    (h : f.store? path content = some f') (hne : p ≠ Place.ofPath path) :
    f'.foundAt p = f.foundAt p := by
  obtain ⟨name, hname, rfl⟩ := store?_eq_some h
  cases p with
  | file other =>
    have hother : other ≠ name := by
      rintro rfl
      exact hne hname.symm
    exact congrArg (fun b => b.elim Found.nothing Found.file) (get?_put_of_ne hother content f)
  | folder => rfl
  | outside => rfl

end Folder

theorem run_store (path : String) (content : Bytes) (w : World) :
    (Host.store path content : Session Bool).run w = (w.folder.store? path content).elim (false, w)
      fun folder => (true, { w with folder }) := by
  cases hstore : w.folder.store? path content with
  | none =>
    simp only [Host.store, StateT.run_bind, StateT.run_get, pure_bind, hstore]
    rfl
  | some folder =>
    simp only [Host.store, StateT.run_bind, StateT.run_get, pure_bind, hstore]
    rfl

/-- A session is such a host. -/
def World.fileHost : FileHost World where
  Place := Place
  place := Place.ofPath
  files w := w.folder.foundAt
  find_eq path w := w.folder.find_eq_foundAt path
  files_find path w := rfl
  files_print text w := rfl
  files_store path content w p hp := by
    rw [run_store]
    cases hstore : w.folder.store? path content with
    | none => rfl
    | some folder => exact Folder.foundAt_store?_of_ne hstore hp
  stored path content w h := by
    rw [run_store] at h ⊢
    cases hstore : w.folder.store? path content with
    | none =>
      rw [hstore] at h
      cases h
    | some folder => exact (folder.find_eq_foundAt path).symm.trans (Folder.find_store? hstore)

theorem World.files_fileHost (w : World) : World.fileHost.files w = w.folder.foundAt := rfl

end LoginForest.Command

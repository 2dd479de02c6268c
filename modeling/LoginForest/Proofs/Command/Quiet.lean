/-
  What commands do to files. What is printed is never read again, so a command ends in a session
  as it does on a host that only keeps a folder, and leaves the same files (`simulates_run`). On
  this host a command first computes from the files that it finds, and then stores its outputs
  one after the other (`ScoreOptions.ending_run`, `RescoreOptions.ending_run`).
-/
import LoginForest.Command.Run

namespace LoginForest.Command

/-- How an action ends, and the state afterwards. -/
def ending {σ α : Type} (x : Action (StateM σ) α) (s : σ) : Except Error α × σ := x.run.run s

theorem ending_bind {σ α β : Type} (x : Action (StateM σ) α) (g : α → Action (StateM σ) β)
    (s : σ) : ending (x >>= g) s =
      match ending x s with
      | (.ok a, s') => ending (g a) s'
      | (.error e, s') => (.error e, s') := by
  have hbind : ending (x >>= g) s =
      (fun p : Except Error α × σ => (ExceptT.bindCont g p.1).run p.2) (ending x s) := rfl
  rw [hbind]
  obtain ⟨a | e, s'⟩ := ending x s <;> rfl

/-! ## A host without output -/

/-- Files of one folder; what is printed is lost. -/
abbrev Quiet := StateM Folder

instance : Host Quiet where
  find path := do return (← get).find path
  store path content := do
    match (← get).store? path content with
    | some folder =>
      set folder
      return true
    | none => return false
  print _ := return

theorem ending_hostStore (path : String) (content : Bytes) (f : Folder) :
    ending (ExceptT.lift (Host.store path content) : Action Quiet Bool) f =
      match f.store? path content with
      | some f' => (.ok true, f')
      | none => (.ok false, f) := by
  have hquiet : ending (ExceptT.lift (Host.store path content) : Action Quiet Bool) f =
      (fun p : Bool × Folder => (.ok p.1, p.2))
        ((match f.store? path content with
          | some folder => do
            set folder
            return true
          | none => return false : Quiet Bool).run f) := rfl
  rw [hquiet]
  cases f.store? path content <;> rfl

/-- A session ends as an action does on files alone, and has the same files afterwards. -/
def Simulates {α : Type} (x : Action Session α) (y : Action Quiet α) : Prop :=
  ∀ w : World, ∃ printed, ending x w = ((ending y w.folder).1, ⟨(ending y w.folder).2, printed⟩)

namespace Simulates

variable {α β : Type}

theorem bind {x : Action Session α} {y : Action Quiet α} {g : α → Action Session β}
    {k : α → Action Quiet β} (h : Simulates x y) (hg : ∀ a, Simulates (g a) (k a)) :
    Simulates (x >>= g) (y >>= k) := by
  intro w
  obtain ⟨printed, hx⟩ := h w
  rw [ending_bind, ending_bind, hx]
  obtain ⟨e | a, folder⟩ := ending y w.folder
  · exact ⟨printed, rfl⟩
  · exact hg a ⟨folder, printed⟩

theorem pure (a : α) : Simulates (pure a) (pure a) := fun w => ⟨w.printed, rfl⟩

theorem result (e : Except Error α) : Simulates (result e) (result e) := fun w => ⟨w.printed, rfl⟩

theorem say (s : String) : Simulates (say s) (say s) := fun w => ⟨w.printed ++ s, rfl⟩

theorem find (path : String) : Simulates (find path) (find path) := fun w => ⟨w.printed, rfl⟩

theorem announce {x : Action Session α} {y : Action Quiet α} (what : String)
    (detail : α → String) (h : Simulates x y) :
    Simulates (announce what detail x) (announce what detail y) :=
  (say _).bind fun _ => h.bind fun a => (say _).bind fun _ => pure a

theorem loadAttempts (path : String) : Simulates (loadAttempts path) (loadAttempts path) :=
  (find path).bind fun _ => result _

theorem loadSettings (path : Option String) :
    Simulates (loadSettings path) (loadSettings path) := by
  cases path with
  | none => exact pure _
  | some path => exact (find path).bind fun _ => result _

theorem loadBundle (path : String) : Simulates (loadBundle path) (loadBundle path) := by
  refine (find path).bind fun found => ?_
  cases found <;> exact result _

theorem hostStore (path : String) (content : Bytes) :
    Simulates (ExceptT.lift (Host.store path content))
      (ExceptT.lift (Host.store path content)) := by
  intro w
  have hsession : ending (ExceptT.lift (Host.store path content) : Action Session Bool) w =
      (fun p : Bool × World => (.ok p.1, p.2))
        ((match w.folder.store? path content with
          | some folder => do
            modify fun w => { w with folder }
            return true
          | none => return false : Session Bool).run w) := rfl
  refine ⟨w.printed, ?_⟩
  rw [hsession, ending_hostStore]
  cases w.folder.store? path content <;> rfl

theorem store (what : String) (path : Option String) (content : Unit → Bytes) :
    Simulates (store what path content) (store what path content) := by
  cases path with
  | none => exact pure _
  | some path =>
    refine (hostStore path (content ())).bind fun stored => ?_
    cases stored with
    | false => exact result _
    | true => exact say _

end Simulates

theorem ScoreOptions.simulates_loadHistory (o : ScoreOptions) (policy : TrustPolicy) :
    Simulates (o.loadHistory policy) (o.loadHistory policy) := by
  unfold loadHistory
  refine (Simulates.announce _ _ (.loadAttempts _)).bind fun attempts => ?_
  cases o.trusted with
  | none => exact .pure _
  | some path => exact (Simulates.announce _ _ (.loadAttempts _)).bind fun trusted => .pure _

section Commands

variable [Elementary]

theorem ScoreOptions.simulates_run (occasion : Occasion) (o : ScoreOptions) :
    Simulates (o.run occasion) (o.run occasion) := by
  unfold run
  refine (Simulates.say _).bind fun _ => (Simulates.loadSettings _).bind fun settings => ?_
  refine (Simulates.result _).bind fun _ => (o.simulates_loadHistory _).bind fun history => ?_
  refine (Simulates.announce _ _ (.result _)).bind fun outcome => (Simulates.say _).bind fun _ => ?_
  refine (Simulates.say _).bind fun _ => (Simulates.say _).bind fun _ => ?_
  refine (Simulates.store _ _ _).bind fun _ => (Simulates.store _ _ _).bind fun _ => ?_
  exact (Simulates.store _ _ _).bind fun _ => .say _

theorem RescoreOptions.simulates_run (o : RescoreOptions) : Simulates o.run o.run := by
  unfold run
  refine (Simulates.say _).bind fun _ => ?_
  refine (Simulates.announce _ _ (.loadBundle _)).bind fun bundle => ?_
  refine (Simulates.announce _ _ (.loadAttempts _)).bind fun attempts => ?_
  refine (Simulates.announce _ _ (.result _)).bind fun scored => ?_
  refine (Simulates.say _).bind fun _ => (Simulates.say _).bind fun _ => ?_
  exact (Simulates.store _ _ _).bind fun _ => (Simulates.store _ _ _).bind fun _ => .say _

/-- A command ends as it does on files alone, and leaves the same files. -/
theorem simulates_run (occasion : Occasion) (c : Command) :
    Simulates (run occasion c) (run occasion c) := by
  cases c with
  | score o => exact o.simulates_run occasion
  | rescore o => exact o.simulates_run

end Commands

/-! ## Actions on files alone -/

namespace Folder

/-- The attempts in the file at a path. -/
def attempts (f : Folder) (path : String) : Except Error (List Attempt) :=
  load .lenient (.ofPath path) (f.find path).content?

/-- The settings in the file at a path, the standard ones without a path. -/
def settings (f : Folder) (path : Option String) : Except Error Settings :=
  match path with
  | none => .ok .standard
  | some path => Settings.ofFile path (f.find path).content?

/-- The bundle in the file at a path. -/
def bundle (f : Folder) (path : String) : Except Error Bundle :=
  match f.find path with
  | .file b => Bundle.load (some b)
  | .nothing => Bundle.load none
  | .other => .error .malformed

/-- Store the files that are asked for one after the other, up to the first that cannot be
stored. -/
def keepAll : List (Option String × Bytes) → Folder → Except Error Unit × Folder
  | [], f => (.ok (), f)
  | (none, _) :: outputs, f => keepAll outputs f
  | (some path, content) :: outputs, f =>
    match f.store? path content with
    | some f' => keepAll outputs f'
    | none => (.error .file, f)

/-- Store the outputs of what was computed, if it could be. -/
def finish {α : Type} (f : Folder) (outputs : α → List (Option String × Bytes))
    (e : Except Error α) : Except Error Unit × Folder :=
  match e with
  | .ok a => f.keepAll (outputs a)
  | .error e => (.error e, f)

end Folder

section Single

variable {α β : Type} {f : Folder}

theorem ending_sayLines_bind (lines : List String) (g : Unit → Action Quiet β) :
    ending (sayLines lines >>= g) f = ending (g ()) f := rfl

/-- Actions that leave the files as they are, one after the other. -/
theorem ending_reads_bind {x : Action Quiet α} {g : α → Action Quiet β} {e : Except Error α}
    {k : α → Except Error β} (hx : ending x f = (e, f)) (hg : ∀ a, ending (g a) f = (k a, f)) :
    ending (x >>= g) f = (e >>= k, f) := by
  rw [ending_bind, hx]
  cases e with
  | error e => rfl
  | ok a => exact hg a

theorem ending_announce {x : Action Quiet α} {e : Except Error α} (hx : ending x f = (e, f))
    (what : String) (detail : α → String) : ending (announce what detail x) f = (e, f) := by
  have hreads := ending_reads_bind (k := .ok) hx fun a =>
    ending_sayLines_bind [Layout.finished (detail a)] fun _ => pure a
  exact hreads.trans (by cases e <;> rfl)

theorem ending_loadAttempts (path : String) :
    ending (loadAttempts path : Action Quiet (List Attempt)) f = (f.attempts path, f) := rfl

theorem ending_loadSettings (path : Option String) :
    ending (loadSettings path : Action Quiet Settings) f = (f.settings path, f) := by
  cases path <;> rfl

theorem ending_loadBundle (path : String) :
    ending (loadBundle path : Action Quiet Bundle) f = (f.bundle path, f) := by
  have hfind : ending (find path : Action Quiet Found) f = (.ok (f.find path), f) := rfl
  unfold loadBundle Folder.bundle
  rw [ending_bind, hfind]
  dsimp only
  cases f.find path <;> rfl

theorem ending_store (what path : String) (content : Unit → Bytes) :
    ending (store what (some path) content : Action Quiet Unit) f =
      match f.store? path (content ()) with
      | some f' => (.ok (), f')
      | none => (.error .file, f) := by
  unfold store
  dsimp only
  rw [ending_bind, ending_hostStore]
  cases f.store? path (content ()) <;> rfl

/-- A file is stored before those that are stored by the rest of an action. -/
theorem ending_store_bind {what : String} {path : Option String} {content : Unit → Bytes}
    {g : Unit → Action Quiet Unit} {outputs : List (Option String × Bytes)}
    (hg : ∀ f, ending (g ()) f = f.keepAll outputs) :
    ending (store what path content >>= g) f = f.keepAll ((path, content ()) :: outputs) := by
  cases path with
  | none => exact hg f
  | some path =>
    rw [ending_bind, ending_store]
    unfold Folder.keepAll
    cases f.store? path (content ()) with
    | none => rfl
    | some f' => exact hg f'

/-- What an action finds out before the rest of it. -/
theorem ending_finish_bind {γ : Type} {x : Action Quiet α} {g : α → Action Quiet Unit}
    {e : Except Error α} {k : α → Except Error γ} {outputs : γ → List (Option String × Bytes)}
    (hx : ending x f = (e, f)) (hg : ∀ a, ending (g a) f = f.finish outputs (k a)) :
    ending (x >>= g) f = f.finish outputs (e >>= k) := by
  rw [ending_bind, hx]
  cases e with
  | error e => rfl
  | ok a => exact hg a

/-- What an action finds out last, before it stores its outputs. -/
theorem ending_finish {x : Action Quiet α} {g : α → Action Quiet Unit} {e : Except Error α}
    {outputs : α → List (Option String × Bytes)} (hx : ending x f = (e, f))
    (hg : ∀ a, ending (g a) f = f.keepAll (outputs a)) :
    ending (x >>= g) f = f.finish outputs e := by
  rw [ending_bind, hx]
  cases e with
  | error e => rfl
  | ok a => exact hg a

end Single

/-! ## Commands on files alone -/

/-- The history in the files of a score command. -/
def ScoreOptions.history (o : ScoreOptions) (policy : TrustPolicy) (f : Folder) :
    Except Error History := do
  let history := (History.ofAttempts (← f.attempts o.data)).withPolicy policy
  match o.trusted with
  | none => return history
  | some path => return history.withTrusted (← f.attempts path)

theorem ScoreOptions.ending_loadHistory (o : ScoreOptions) (policy : TrustPolicy) (f : Folder) :
    ending (o.loadHistory policy : Action Quiet History) f = (o.history policy f, f) := by
  unfold loadHistory history
  refine ending_reads_bind (ending_announce (ending_loadAttempts o.data) _ _) fun attempts => ?_
  cases o.trusted with
  | none => rfl
  | some path =>
    exact ending_reads_bind (ending_announce (ending_loadAttempts path) _ _) fun trusted => rfl

section Commands

variable [Elementary]

/-- What a score command computes from files. -/
def ScoreOptions.outcome (occasion : Occasion) (o : ScoreOptions) (f : Folder) :
    Except Error Outcome := do
  let settings := o.overrides.apply (← f.settings o.config)
  settings.check
  settings.runHistory occasion (← o.history settings.trust f)

/-- What a score command stores, in this order. -/
def ScoreOptions.outputs (o : ScoreOptions) (outcome : Outcome) : List (Option String × Bytes) :=
  [(o.output, Report.commaSeparated (Scored.ranked outcome.scored)),
    (o.timeline, Report.commaSeparated (Scored.timeOrdered outcome.scored)),
    (o.model, Bytes.ofText outcome.bundle.toJson)]

/-- A score command computes its outcome and stores it. -/
theorem ScoreOptions.ending_run (occasion : Occasion) (o : ScoreOptions) (f : Folder) :
    ending (o.run occasion : Action Quiet Unit) f =
      f.finish o.outputs (o.outcome occasion f) := by
  unfold run outcome
  rw [ending_sayLines_bind]
  refine ending_finish_bind (ending_loadSettings o.config) fun settings => ?_
  refine ending_finish_bind rfl fun _ => ?_
  refine ending_finish_bind (o.ending_loadHistory _ f) fun history => ?_
  refine ending_finish (ending_announce rfl _ _) fun outcome => ?_
  rw [ending_sayLines_bind]
  dsimp only
  rw [ending_sayLines_bind, ending_sayLines_bind]
  exact ending_store_bind fun f => ending_store_bind fun f => ending_store_bind fun f => rfl

/-- What a rescore command computes from files. -/
def RescoreOptions.scored (o : RescoreOptions) (f : Folder) : Except Error (List Scored) := do
  let bundle ← f.bundle o.model
  bundle.scoreAttempts (inTimeOrder (← f.attempts o.data))

/-- What a rescore command stores, in this order. -/
def RescoreOptions.outputs (o : RescoreOptions) (scored : List Scored) :
    List (Option String × Bytes) :=
  [(o.output, Report.commaSeparated (Scored.ranked scored)),
    (o.timeline, Report.commaSeparated scored)]

/-- A rescore command computes its rows and stores them. -/
theorem RescoreOptions.ending_run (o : RescoreOptions) (f : Folder) :
    ending (o.run : Action Quiet Unit) f = f.finish o.outputs (o.scored f) := by
  unfold run scored
  rw [ending_sayLines_bind]
  refine ending_finish_bind (ending_announce (ending_loadBundle o.model) _ _) fun bundle => ?_
  refine ending_finish_bind (ending_announce (ending_loadAttempts o.data) _ _) fun attempts => ?_
  refine ending_finish (ending_announce rfl _ _) fun scored => ?_
  rw [ending_sayLines_bind]
  dsimp only
  rw [ending_sayLines_bind]
  exact ending_store_bind fun f => ending_store_bind fun f => rfl

end Commands

end LoginForest.Command

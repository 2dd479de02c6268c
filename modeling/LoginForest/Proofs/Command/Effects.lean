/-
  What commands do to files. A command that is refused, for any cause there is
  (`ScoreOptions.Refused`, `RescoreOptions.Refused`), leaves all files as they were; any other one
  has all its outputs ready before it stores the first of them, and stores them in the order
  report, timeline, model. So nothing but the outputs is touched, and where one of them cannot be
  stored those before it are complete and those behind it were not begun
  (`touches_only_outputs`). Two outputs may have one place: then it is the later one that counts.
-/
import LoginForest.Proofs.Bundle.Accepted
import LoginForest.Proofs.Command.FileHost
import LoginForest.Proofs.Command.Reports

namespace LoginForest.Command

/-! ## What is prepared -/

namespace View

/-- The history in the files of a score command. -/
def history (v : View) (o : ScoreOptions) (policy : TrustPolicy) : Except Error History := do
  let history := (History.ofAttempts (← v.attempts o.data)).withPolicy policy
  match o.trusted with
  | none => return history
  | some path => return history.withTrusted (← v.attempts path)

variable [Elementary]

/-- What a score command computes from files. -/
def outcome (v : View) (occasion : Occasion) (o : ScoreOptions) : Except Error Outcome := do
  let settings := o.overrides.apply (← v.settings o.config)
  settings.check
  settings.runHistory occasion (← v.history o settings.trust)

/-- What a rescore command computes from files. -/
def scored (v : View) (o : RescoreOptions) : Except Error (List Scored) := do
  let bundle ← v.bundle o.model
  bundle.scoreAttempts (inTimeOrder (← v.attempts o.data))

end View

/-- The paths of the outputs that are asked for, in the order in which they are stored. -/
def outputPaths : Command → List String
  | .score o => [o.output, o.timeline, o.model].reduceOption
  | .rescore o => [o.output, o.timeline].reduceOption

/-- The outputs that are asked for, if nothing is wrong with the files that are read. -/
def prepared [Elementary] (occasion : Occasion) (v : View) :
    Command → Except Error (List (String × Bytes))
  | .score o => (v.outcome occasion o).map fun outcome => FileHost.asked (o.outputs outcome)
  | .rescore o => (v.scored o).map fun rows => FileHost.asked (o.outputs rows)

section Prepares

variable {σ : Type} [Host (StateM σ)] {h : FileHost σ} {files : h.Place → Found}

theorem ScoreOptions.reads_loadHistory (o : ScoreOptions) (policy : TrustPolicy) :
    h.Reads files (o.loadHistory policy) ((h.view files).history o policy) := by
  unfold loadHistory View.history
  refine (FileHost.Reads.announce (.loadAttempts o.data) _ _).bind fun attempts => ?_
  cases o.trusted with
  | none => exact .pure _
  | some path =>
    exact (FileHost.Reads.announce (.loadAttempts path) _ _).bind fun trusted => .pure _

variable [Elementary]

/-- A score command has its outputs ready before it stores them. -/
theorem ScoreOptions.prepares_run (occasion : Occasion) (o : ScoreOptions) :
    h.Prepares files (o.run occasion) (fun outcome => FileHost.asked (o.outputs outcome))
      ((h.view files).outcome occasion o) := by
  unfold run View.outcome
  refine FileHost.prepares_sayLines_bind _ ?_
  refine (FileHost.Reads.loadSettings o.config).prepares_bind fun settings => ?_
  refine (FileHost.Reads.result _).prepares_bind fun _ => ?_
  refine (o.reads_loadHistory _).prepares_bind fun history => ?_
  refine (FileHost.Reads.announce (.result _) _ _).prepares_last fun outcome => ?_
  refine FileHost.writes_sayLines_bind h _ (FileHost.writes_sayLines_bind h _ ?_)
  refine FileHost.writes_sayLines_bind h _ ?_
  refine FileHost.writes_store_bind h (FileHost.writes_store_bind h ?_)
  exact FileHost.writes_store_bind h (h.writes_sayLines _)

/-- A rescore command has its outputs ready before it stores them. -/
theorem RescoreOptions.prepares_run (o : RescoreOptions) :
    h.Prepares files o.run (fun rows => FileHost.asked (o.outputs rows))
      ((h.view files).scored o) := by
  unfold run View.scored
  refine FileHost.prepares_sayLines_bind _ ?_
  refine (FileHost.Reads.announce (.loadBundle o.model) _ _).prepares_bind fun bundle => ?_
  refine (FileHost.Reads.announce (.loadAttempts o.data) _ _).prepares_bind fun attempts => ?_
  refine (FileHost.Reads.announce (.result _) _ _).prepares_last fun scored => ?_
  refine FileHost.writes_sayLines_bind h _ (FileHost.writes_sayLines_bind h _ ?_)
  refine FileHost.writes_store_bind h (FileHost.writes_store_bind h ?_)
  exact h.writes_sayLines _

end Prepares

/-! ## Why commands are refused -/

/-- Why a score command stores nothing: its settings cannot be read or are not accepted, nor with
what is given on top of them, its attempts or its trusted ones cannot be read, or there is no
attempt. -/
inductive ScoreOptions.Refused (v : View) (o : ScoreOptions) : Error → Prop
  | settings {e} : v.settings o.config = .error e → Refused v o e
  | overrides {s e} : v.settings o.config = .ok s → (o.overrides.apply s).check = .error e →
    Refused v o e
  | data {s e} : v.settings o.config = .ok s → (o.overrides.apply s).check = .ok () →
    v.attempts o.data = .error e → Refused v o e
  | trusted {s attempts path e} : v.settings o.config = .ok s →
    (o.overrides.apply s).check = .ok () → v.attempts o.data = .ok attempts →
    o.trusted = some path → v.attempts path = .error e → Refused v o e
  | empty {s} : v.settings o.config = .ok s → (o.overrides.apply s).check = .ok () →
    v.attempts o.data = .ok [] →
    (∀ path, o.trusted = some path → ∃ trusted, v.attempts path = .ok trusted) →
    Refused v o (.empty .score)

/-- Why a rescore command stores nothing: its model or its attempts cannot be read, there is no
attempt, or the model is not for the features of attempts. -/
inductive RescoreOptions.Refused [Elementary] (v : View) (o : RescoreOptions) : Error → Prop
  | model {e} : v.bundle o.model = .error e → Refused v o e
  | data {b e} : v.bundle o.model = .ok b → v.attempts o.data = .error e → Refused v o e
  | empty {b} : v.bundle o.model = .ok b → v.attempts o.data = .ok [] →
    Refused v o (.empty .rescore)
  | columns {b attempts} : v.bundle o.model = .ok b → v.attempts o.data = .ok attempts →
    attempts ≠ [] → b.forest.width ≠ featureNames.length →
    Refused v o (.columns b.forest.width featureNames.length)
  | stray {b attempts x} : v.bundle o.model = .ok b → v.attempts o.data = .ok attempts →
    attempts ≠ [] → b.forest.width = featureNames.length →
    b.scaling.transform (Features.ofAttempts (inTimeOrder attempts)).matrix = .ok x →
    b.forest.admits x = false → Refused v o .outOfRange

/-- Why a command stores nothing. -/
def Refused [Elementary] (v : View) : Command → Error → Prop
  | .score o => o.Refused v
  | .rescore o => o.Refused v

section Causes

variable {v : View} {e : Error}

theorem View.history_eq_error_iff {o : ScoreOptions} {policy : TrustPolicy} :
    v.history o policy = .error e ↔ v.attempts o.data = .error e ∨
      ∃ attempts path, v.attempts o.data = .ok attempts ∧ o.trusted = some path ∧
        v.attempts path = .error e := by
  unfold history
  rw [Except.bind_eq_error_iff]
  refine or_congr_right (exists_congr fun attempts => ?_)
  cases htrusted : o.trusted with
  | none =>
    constructor
    · rintro ⟨-, ⟨⟩⟩
    · rintro ⟨path, -, ⟨⟩, -⟩
  | some path =>
    dsimp only
    rw [Except.bind_eq_error_iff]
    constructor
    · rintro ⟨hattempts, hpath | ⟨trusted, -, ⟨⟩⟩⟩
      exact ⟨path, hattempts, rfl, hpath⟩
    · rintro ⟨_, hattempts, ⟨⟩, hpath⟩
      exact ⟨hattempts, .inl hpath⟩

/-- A history has the attempts of its file, and the trusted ones of theirs if there is one. -/
theorem View.history_eq_ok {o : ScoreOptions} {policy : TrustPolicy} {history : History}
    (h : v.history o policy = .ok history) :
    (∃ attempts, v.attempts o.data = .ok attempts ∧ history.attempts = inTimeOrder attempts) ∧
      ∀ path, o.trusted = some path → ∃ trusted, v.attempts path = .ok trusted := by
  obtain ⟨attempts, hattempts, h⟩ := Except.bind_eq_ok h
  cases htrusted : o.trusted with
  | none =>
    rw [htrusted] at h
    obtain rfl := Except.ok.inj h
    refine ⟨⟨attempts, hattempts, rfl⟩, ?_⟩
    rintro path ⟨⟩
  | some path =>
    rw [htrusted] at h
    obtain ⟨trusted, hpath, h⟩ := Except.bind_eq_ok h
    obtain rfl := Except.ok.inj h
    refine ⟨⟨attempts, hattempts, rfl⟩, ?_⟩
    rintro _ ⟨⟩
    exact ⟨trusted, hpath⟩

theorem View.exists_history {o : ScoreOptions} {policy : TrustPolicy}
    (hdata : v.attempts o.data = .ok [])
    (htrusted : ∀ path, o.trusted = some path → ∃ trusted, v.attempts path = .ok trusted) :
    ∃ history, v.history o policy = .ok history ∧ history.attempts = [] := by
  cases hhistory : v.history o policy with
  | error e =>
    rcases history_eq_error_iff.mp hhistory with herror | ⟨_, path, -, hpath, herror⟩
    · rw [hdata] at herror
      cases herror
    · obtain ⟨trusted, hok⟩ := htrusted path hpath
      rw [hok] at herror
      cases herror
  | ok history =>
    obtain ⟨⟨attempts, hattempts, hordered⟩, -⟩ := history_eq_ok hhistory
    obtain rfl := Except.ok.inj (hdata.symm.trans hattempts)
    exact ⟨history, rfl, hordered.trans (inTimeOrder_eq_nil_iff.mpr rfl)⟩

/-- A bundle that was read has scaling and forest of one width. -/
theorem View.width_bundle {path : String} {b : Bundle} (h : v.bundle path = .ok b) :
    b.scaling.width = b.forest.width := by
  have haccepted : b.Accepted := by
    unfold bundle at h
    cases hfound : v path with
    | file content =>
      rw [hfound] at h
      exact .inr ⟨some content, h⟩
    | nothing =>
      rw [hfound] at h
      exact .inr ⟨none, h⟩
    | other =>
      rw [hfound] at h
      cases h
  exact (Bundle.accepted_iff.mp haccepted).2

variable [Elementary]

/-- A bundle refuses attempts for want of any, for their number of features, or when a row is
asked for a feature that it does not have. -/
theorem scoreAttempts_eq_error_iff {b : Bundle} (hwidth : b.scaling.width = b.forest.width)
    {attempts : List Attempt} : b.scoreAttempts attempts = .error e ↔
      (attempts = [] ∧ e = .empty .rescore) ∨
      (attempts ≠ [] ∧ b.forest.width ≠ featureNames.length ∧
        e = .columns b.forest.width featureNames.length) ∨
      (attempts ≠ [] ∧ b.forest.width = featureNames.length ∧
        ∃ x, b.scaling.transform (Features.ofAttempts attempts).matrix = .ok x ∧
          b.forest.admits x = false ∧ e = .outOfRange) := by
  have hfeatures : (Features.ofAttempts attempts).matrix.width = featureNames.length :=
    Features.width_ofAttempts attempts
  unfold Bundle.scoreAttempts
  by_cases hempty : attempts = []
  · rw [if_pos (List.isEmpty_iff.mpr hempty)]
    constructor
    · rintro ⟨⟩
      exact .inl ⟨hempty, rfl⟩
    · rintro (⟨-, rfl⟩ | ⟨hne, -⟩ | ⟨hne, -⟩)
      · rfl
      · exact absurd hempty hne
      · exact absurd hempty hne
  rw [if_neg (mt List.isEmpty_iff.mp hempty)]
  by_cases hcolumns : b.forest.width = featureNames.length
  · obtain ⟨x, htransform, -, -, hscore⟩ :=
      Bundle.scoreMatrix_eq hwidth (hfeatures.trans hcolumns.symm)
    rw [hscore, htransform]
    by_cases hadmits : b.forest.admits x
    · rw [if_pos hadmits]
      constructor
      · rintro ⟨⟩
      · rintro (⟨h, -⟩ | ⟨-, h, -⟩ | ⟨-, -, _, ⟨⟩, hstray, -⟩)
        · exact absurd h hempty
        · exact absurd hcolumns h
        · rw [hadmits] at hstray
          cases hstray
    · rw [if_neg hadmits]
      constructor
      · rintro ⟨⟩
        exact .inr (.inr ⟨hempty, hcolumns, x, rfl, Bool.eq_false_iff.mpr hadmits, rfl⟩)
      · rintro (⟨h, -⟩ | ⟨-, h, -⟩ | ⟨-, -, _, -, -, rfl⟩)
        · exact absurd h hempty
        · exact absurd hcolumns h
        · rfl
  · rw [Bundle.scoreMatrix_of_width_ne hwidth (hfeatures ▸ Ne.symm hcolumns), hfeatures]
    constructor
    · rintro ⟨⟩
      exact .inr (.inl ⟨hempty, hcolumns, rfl⟩)
    · rintro (⟨h, -⟩ | ⟨-, -, rfl⟩ | ⟨-, h, -⟩)
      · exact absurd h hempty
      · rfl
      · exact absurd h hcolumns

/-- With accepted settings a run is refused only for want of attempts. -/
theorem runHistory_eq_error_iff {s : Settings} {occasion : Occasion} {history : History}
    (hcheck : s.check = .ok ()) : s.runHistory occasion history = .error e ↔
      history.attempts = [] ∧ e = .empty .score := by
  unfold Settings.runHistory
  by_cases hempty : history.attempts = []
  · rw [if_pos (List.isEmpty_iff.mpr hempty)]
    constructor
    · rintro ⟨⟩
      exact ⟨hempty, rfl⟩
    · rintro ⟨-, rfl⟩
      rfl
  · rw [if_neg (mt List.isEmpty_iff.mp hempty), Settings.run_eq occasion _ hcheck hempty]
    constructor
    · rintro ⟨⟩
    · rintro ⟨h, -⟩
      exact absurd h hempty

/-- A score command has an outcome unless there is a cause to refuse it. -/
theorem ScoreOptions.outcome_eq_error_iff {occasion : Occasion} {o : ScoreOptions} :
    v.outcome occasion o = .error e ↔ o.Refused v e := by
  unfold View.outcome
  constructor
  · intro h
    rcases Except.bind_eq_error_iff.mp h with hsettings | ⟨s, hsettings, h⟩
    · exact .settings hsettings
    rcases Except.bind_eq_error_iff.mp h with hcheck | ⟨_, hcheck, h⟩
    · exact .overrides hsettings hcheck
    rcases Except.bind_eq_error_iff.mp h with hhistory | ⟨history, hhistory, hrun⟩
    · rcases View.history_eq_error_iff.mp hhistory with hdata | ⟨_, path, hdata, hpath, htrusted⟩
      · exact .data hsettings hcheck hdata
      · exact .trusted hsettings hcheck hdata hpath htrusted
    · obtain ⟨⟨attempts, hdata, hordered⟩, htrusted⟩ := View.history_eq_ok hhistory
      obtain ⟨hempty, rfl⟩ := (runHistory_eq_error_iff hcheck).mp hrun
      obtain rfl := inTimeOrder_eq_nil_iff.mp (hordered.symm.trans hempty)
      exact .empty hsettings hcheck hdata htrusted
  · rintro (hsettings | ⟨hsettings, hcheck⟩ | ⟨hsettings, hcheck, hdata⟩ |
      ⟨hsettings, hcheck, hdata, hpath, htrusted⟩ | ⟨hsettings, hcheck, hdata, htrusted⟩)
    all_goals rw [hsettings]
    · rfl
    all_goals
      rw [Except.ok_bind]
      dsimp only
      rw [hcheck]
    · rfl
    all_goals rw [Except.ok_bind]
    · rw [View.history_eq_error_iff.mpr (.inl hdata)]
      rfl
    · rw [View.history_eq_error_iff.mpr (.inr ⟨_, _, hdata, hpath, htrusted⟩)]
      rfl
    · obtain ⟨history, hhistory, hempty⟩ := View.exists_history hdata htrusted
      rw [hhistory, Except.ok_bind]
      exact (runHistory_eq_error_iff hcheck).mpr ⟨hempty, rfl⟩

/-- A rescore command has its rows unless there is a cause to refuse it. -/
theorem RescoreOptions.scored_eq_error_iff {o : RescoreOptions} :
    v.scored o = .error e ↔ o.Refused v e := by
  unfold View.scored
  constructor
  · intro h
    rcases Except.bind_eq_error_iff.mp h with hbundle | ⟨b, hbundle, h⟩
    · exact .model hbundle
    rcases Except.bind_eq_error_iff.mp h with hdata | ⟨attempts, hdata, h⟩
    · exact .data hbundle hdata
    rcases (scoreAttempts_eq_error_iff (View.width_bundle hbundle)).mp h with
      ⟨hempty, rfl⟩ | ⟨hne, hcolumns, rfl⟩ | ⟨hne, hcolumns, x, hx, hadmits, rfl⟩
    · obtain rfl := inTimeOrder_eq_nil_iff.mp hempty
      exact .empty hbundle hdata
    · exact .columns hbundle hdata (mt inTimeOrder_eq_nil_iff.mpr hne) hcolumns
    · exact .stray hbundle hdata (mt inTimeOrder_eq_nil_iff.mpr hne) hcolumns hx hadmits
  · rintro (hbundle | ⟨hbundle, hdata⟩ | ⟨hbundle, hdata⟩ | ⟨hbundle, hdata, hne, hcolumns⟩ |
      ⟨hbundle, hdata, hne, hcolumns, hx, hadmits⟩)
    all_goals rw [hbundle]
    · rfl
    all_goals rw [Except.ok_bind, hdata]
    · rfl
    all_goals rw [Except.ok_bind, scoreAttempts_eq_error_iff (View.width_bundle hbundle)]
    · exact .inl ⟨inTimeOrder_eq_nil_iff.mpr rfl, rfl⟩
    · exact .inr (.inl ⟨mt inTimeOrder_eq_nil_iff.mp hne, hcolumns, rfl⟩)
    · exact .inr (.inr ⟨mt inTimeOrder_eq_nil_iff.mp hne, hcolumns, _, hx, hadmits, rfl⟩)

end Causes

/-! ## What commands do to files -/

section Effects

variable [Elementary]

theorem ends_run {σ : Type} [Host (StateM σ)] (h : FileHost σ) (occasion : Occasion) (c : Command)
    (s : σ) : h.Ends (c.prepared occasion (h.view (h.files s))) (h.files s)
      (ending (c.run occasion) s).1 (h.files (ending (c.run occasion) s).2) := by
  cases c with
  | score o => exact o.prepares_run occasion s rfl
  | rescore o => exact o.prepares_run s rfl

theorem map_prepared {occasion : Occasion} {v : View} {c : Command}
    {outputs : List (String × Bytes)} (h : c.prepared occasion v = .ok outputs) :
    outputs.map (·.1) = c.outputPaths := by
  cases c with
  | score o =>
    obtain ⟨outcome, -, rfl⟩ := Except.map_eq_ok h
    exact FileHost.map_asked _
  | rescore o =>
    obtain ⟨rows, -, rfl⟩ := Except.map_eq_ok h
    exact FileHost.map_asked _

theorem prepared_eq_error_iff {occasion : Occasion} {v : View} {c : Command} {e : Error} :
    c.prepared occasion v = .error e ↔ c.Refused v e := by
  cases c with
  | score o => exact Except.map_eq_error_iff.trans o.outcome_eq_error_iff
  | rescore o => exact Except.map_eq_error_iff.trans o.scored_eq_error_iff

/-- On every host a command changes no file but its outputs. If it is refused it changes none at
all and ends with the error of its cause. Otherwise it has all outputs ready, and ends well with
all of them complete, or at the first that cannot be stored: those before it are complete, and
those behind it are as they were. -/
theorem touches_only_outputs {σ : Type} [Host (StateM σ)] (h : FileHost σ) (occasion : Occasion)
    (c : Command) (s : σ) :
    h.Effects c.outputPaths (c.prepared occasion (h.view (h.files s))) (h.files s)
        (ending (c.run occasion) s).1 (h.files (ending (c.run occasion) s).2) ∧
      ∀ e, c.prepared occasion (h.view (h.files s)) = .error e ↔
        c.Refused (h.view (h.files s)) e :=
  ⟨(ends_run h occasion c s).effects fun _ => map_prepared, fun _ => prepared_eq_error_iff⟩

theorem inFolder_eq_ending (occasion : Occasion) (c : Command) (f : Folder) :
    inFolder occasion c f = ending (c.run occasion) ⟨f, ""⟩ := rfl

end Effects

/-- Score the lines to two outputs of one name and a third that is no file. -/
def scoreClash : Command :=
  .score { scoreLines with output := some "r.csv", timeline := some "r.csv", model := some "." }

/-- Score lines that are not there. -/
def scoreGone : Command := .score { scoreLines with data := "gone.csv" }

theorem attempts_gone : (World.fileHost.view (World.fileHost.files ⟨threeLines, ""⟩)).attempts
    "gone.csv" = .error .unreadableTable := by
  have hformat : Format.ofPath "gone.csv" = .commaSeparated := by decide +kernel
  have hfound : (threeLines.foundAt (Place.ofPath "gone.csv")).content? = none := by decide +kernel
  unfold View.attempts
  rw [hformat]
  exact congrArg (load .lenient .commaSeparated) hfound

/-- The lines are kept by the one, and everything by the other. -/
theorem touches_only_outputs_lines :
    (inFolder ⟨.epoch, 0⟩ scoreClash threeLines).2.folder.foundAt (.file "d.csv") =
        threeLines.foundAt (.file "d.csv") ∧
      (inFolder ⟨.epoch, 0⟩ scoreGone threeLines).1 = .error .unreadableTable ∧
      (inFolder ⟨.epoch, 0⟩ scoreGone threeLines).2.folder.foundAt = threeLines.foundAt := by
  obtain ⟨hclash, -⟩ := touches_only_outputs World.fileHost ⟨.epoch, 0⟩ scoreClash ⟨threeLines, ""⟩
  obtain ⟨hgone, hcause⟩ :=
    touches_only_outputs World.fileHost ⟨.epoch, 0⟩ scoreGone ⟨threeLines, ""⟩
  have hprepared := (hcause _).mpr (.data rfl Settings.check_standard attempts_gone)
  have hapart : ∀ path ∈ ["r.csv", "r.csv", "."], Place.file "d.csv" ≠ Place.ofPath path := by
    decide +kernel
  have hkept := hclash.others (Place.file "d.csv") hapart
  have hrefused := hgone.refused _ hprepared
  rw [World.files_fileHost, World.files_fileHost] at hkept hrefused
  rw [inFolder_eq_ending, inFolder_eq_ending]
  exact ⟨hkept, hrefused⟩

end LoginForest.Command

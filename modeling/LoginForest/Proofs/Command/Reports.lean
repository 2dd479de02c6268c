/-
  Scoring again with the model of a score command. Both commands put the attempts of the file in
  time order; what the model gives them is what the run gave them, and the document of the model
  is read as the model. So the reports and the timelines of the two commands are the same bytes
  (`rescore_reproduces`): a timeline in time order, attempts at one instant in the order of the
  file, and a report of its rows with the highest score first, equal scores in time order. What the
  bytes hold is read off them again: a record for each row, with its attempt, score and flag.
-/
import LoginForest.Proofs.Bundle.Reread
import LoginForest.Proofs.Command.Stored
import LoginForest.Proofs.Scoring.Ranking
import LoginForest.Proofs.Scoring.Reload

namespace LoginForest

/-! ## Orders of rows -/

namespace Scored

/-- Rows of attempts in time order are in time order. -/
theorem timeOrdered_eq_self {rows : List Scored} {attempts : List Attempt}
    (h : rows.map (·.attempt) = inTimeOrder attempts) : timeOrdered rows = rows := by
  have hascending := (stablyOrdered_inTimeOrder attempts).ascending
  rw [← h, List.pairwise_map] at hascending
  exact List.mergeSort_of_pairwise hascending

end Scored

theorem Settings.trainingList_select_sublist (p : TrustPolicy) (all : List Attempt) :
    (trainingList (p.select all) all).Sublist all := by
  unfold trainingList
  split
  · exact .refl all
  · exact List.filter_sublist

namespace Command

/-! ## What the commands compute -/

theorem Folder.attempts_eq {f f' : Folder} {path : String} (h : f'.find path = f.find path) :
    f'.attempts path = f.attempts path := by
  unfold attempts
  rw [h]

/-- A report of rows of attempts that are read from a file lists them, in whatever order. -/
theorem Folder.lists_of_attempts {f : Folder} {path : String} {attempts : List Attempt}
    (h : f.attempts path = .ok attempts) {rows : List Scored}
    (hrows : (rows.map (·.attempt)).Perm attempts) :
    Report.Lists (Report.commaSeparated rows) rows := by
  refine Report.lists_commaSeparated fun s hs => loaded_of_load h s.attempt ?_
  exact hrows.mem_iff.mp (List.mem_map_of_mem hs)

/-- The history of a score command has the attempts of its file in time order. -/
theorem ScoreOptions.attempts_history {o : ScoreOptions} {f : Folder} {policy : TrustPolicy}
    {h : History} (hload : o.history policy f = .ok h) :
    ∃ attempts, f.attempts o.data = .ok attempts ∧ h.attempts = inTimeOrder attempts := by
  obtain ⟨attempts, hattempts, hload⟩ := Except.bind_eq_ok hload
  refine ⟨attempts, hattempts, ?_⟩
  cases htrusted : o.trusted with
  | none =>
    simp only [htrusted] at hload
    obtain rfl := Except.ok.inj hload
    rfl
  | some path =>
    simp only [htrusted] at hload
    obtain ⟨trusted, -, hload⟩ := Except.bind_eq_ok hload
    obtain rfl := Except.ok.inj hload
    rfl

section Commands

variable [Elementary] {occasion : Occasion} {f : Folder}

/-- A score command scores the attempts of its file in time order, and its model scores them as
it does. -/
theorem ScoreOptions.scored_outcome {o : ScoreOptions} {outcome : Outcome}
    (h : o.outcome occasion f = .ok outcome) :
    ∃ attempts, f.attempts o.data = .ok attempts ∧
      outcome.scored.map (·.attempt) = inTimeOrder attempts ∧
      outcome.bundle.scoreAttempts (inTimeOrder attempts) = .ok outcome.scored := by
  obtain ⟨settings, -, h⟩ := Except.bind_eq_ok h
  obtain ⟨-, -, h⟩ := Except.bind_eq_ok h
  obtain ⟨history, hload, hrun⟩ := Except.bind_eq_ok h
  obtain ⟨attempts, hattempts, hordered⟩ := attempts_history hload
  refine ⟨attempts, hattempts, ?_⟩
  unfold Settings.runHistory at hrun
  split at hrun
  · cases hrun
  · obtain ⟨hscored, hmap⟩ := Settings.scoreAttempts_of_run hrun
    rw [hordered] at hscored hmap
    exact ⟨hmap, hscored⟩

/-- A rescore command with the model of an outcome gives its rows. -/
theorem RescoreOptions.scored_of_bundle {o : RescoreOptions} {b : Bundle} {rows : List Scored}
    (hmodel : f.find o.model = .file (Bytes.ofText b.toJson)) (h : o.scored f = .ok rows) :
    ∃ attempts, f.attempts o.data = .ok attempts ∧
      b.scoreAttempts (inTimeOrder attempts) = .ok rows := by
  obtain ⟨b', hread, h⟩ := Except.bind_eq_ok h
  obtain ⟨attempts, hattempts, h⟩ := Except.bind_eq_ok h
  unfold Folder.bundle at hread
  rw [hmodel] at hread
  dsimp only at hread
  rw [Bundle.load_ofText] at hread
  obtain rfl := Bundle.eq_of_ofJson_toJson hread
  exact ⟨attempts, hattempts, h⟩

/-- A rescore command gives rows with a model that can be reopened. -/
theorem RescoreOptions.scored_eq_ok {o : RescoreOptions} {b : Bundle} {rows : List Scored}
    {attempts : List Attempt} (hmodel : f.find o.model = .file (Bytes.ofText b.toJson))
    (hreopens : Bundle.ofJson b.toJson = .ok b) (hattempts : f.attempts o.data = .ok attempts)
    (hrows : b.scoreAttempts (inTimeOrder attempts) = .ok rows) : o.scored f = .ok rows := by
  have hbundle : f.bundle o.model = .ok b := by
    unfold Folder.bundle
    rw [hmodel]
    dsimp only
    rw [Bundle.load_ofText, hreopens]
  unfold scored
  rw [hbundle, Except.ok_bind, hattempts, Except.ok_bind, hrows]

/-! ## Commands in a folder -/

/-- A command ends well in a session just when it does so on files alone. -/
theorem inFolder_ok_iff {c : Command} {f' : Folder} :
    (∃ w, inFolder occasion c f = (.ok (), w) ∧ w.folder = f') ↔
      ending (run occasion c : Action Quiet Unit) f = (.ok (), f') := by
  obtain ⟨printed, hsession⟩ : ∃ printed, inFolder occasion c f =
      ((ending (run occasion c : Action Quiet Unit) f).1,
        ⟨(ending (run occasion c : Action Quiet Unit) f).2, printed⟩) :=
    simulates_run occasion c ⟨f, ""⟩
  rw [hsession]
  constructor
  · rintro ⟨w, h, rfl⟩
    obtain ⟨hok, rfl⟩ := Prod.mk.inj h
    exact Prod.ext hok rfl
  · intro h
    rw [h]
    exact ⟨_, rfl, rfl⟩

/-- A score command ends well when it has an outcome and can store its outputs. -/
theorem ScoreOptions.inFolder_ok_iff {o : ScoreOptions} {f' : Folder} :
    (∃ w, inFolder occasion (.score o) f = (.ok (), w) ∧ w.folder = f') ↔
      ∃ outcome, o.outcome occasion f = .ok outcome ∧
        f.keepAll (o.outputs outcome) = (.ok (), f') := by
  rw [Command.inFolder_ok_iff, Command.run, ending_run, Folder.finish_eq_ok_iff]

/-- A rescore command ends well when it has rows and can store its outputs. -/
theorem RescoreOptions.inFolder_ok_iff {o : RescoreOptions} {f' : Folder} :
    (∃ w, inFolder occasion (.rescore o) f = (.ok (), w) ∧ w.folder = f') ↔
      ∃ rows, o.scored f = .ok rows ∧ f.keepAll (o.outputs rows) = (.ok (), f') := by
  rw [Command.inFolder_ok_iff, Command.run, ending_run, Folder.finish_eq_ok_iff]

/-- A score command and a rescore command with its model, the attempts of one file, and outputs
of their own: the same report and the same timeline are stored again, and those of the first
command are left as they are. A timeline lists the attempts of the file in time order, those of
one instant in the order of the file; a report lists its rows with the highest score first, those
of one score in time order. -/
theorem rescore_reproduces {later : Occasion} {o : ScoreOptions} {w w' : World}
    {report timeline model report' timeline' : String} {top : Nat}
    (hplaces : ([o.data, report, timeline, model, report', timeline'].map Place.ofPath).Nodup)
    (hscore : inFolder occasion (.score
      { o with output := some report, timeline := some timeline, model := some model }) f =
        (.ok (), w))
    (hrescore : inFolder later (.rescore
      { model, data := o.data, output := some report', timeline := some timeline', top })
        w.folder = (.ok (), w')) :
    ∃ attempts rows ranked, f.attempts o.data = .ok attempts ∧
      StablyOrdered (fun a b : Attempt => a.time.notAfter b.time) attempts
        (rows.map (·.attempt)) ∧
      StablyOrdered (fun a b : Scored => Number.place b.score ≤ Number.place a.score) rows
        ranked ∧
      w.folder.find report = .file (Report.commaSeparated ranked) ∧
      w.folder.find timeline = .file (Report.commaSeparated rows) ∧
      Report.Lists (Report.commaSeparated ranked) ranked ∧
      Report.Lists (Report.commaSeparated rows) rows ∧
      w'.folder.find report' = w.folder.find report ∧
      w'.folder.find timeline' = w.folder.find timeline ∧
      w'.folder.find report = w.folder.find report ∧
      w'.folder.find timeline = w.folder.find timeline := by
  obtain ⟨outcome, houtcome, hkeep⟩ := ScoreOptions.inFolder_ok_iff.mp ⟨w, hscore, rfl⟩
  obtain ⟨rows, hrows, hkeep'⟩ := RescoreOptions.inFolder_ok_iff.mp ⟨w', hrescore, rfl⟩
  obtain ⟨attempts, hattempts, hmap, hscored⟩ := ScoreOptions.scored_outcome houtcome
  -- the places of both commands' outputs, beside that of the attempts
  have hsplit : (Place.ofPath o.data :: ([report, timeline, model].map Place.ofPath ++
    [report', timeline'].map Place.ofPath)).Nodup := hplaces
  obtain ⟨hdata, hrest⟩ := List.nodup_cons.mp hsplit
  obtain ⟨hfirst, hsecond, hapart⟩ := List.nodup_append.mp hrest
  have hreport := Folder.find_keepAll_of_mem hkeep hfirst (List.mem_of_getElem? (i := 0) rfl)
  have htimeline := Folder.find_keepAll_of_mem hkeep hfirst (List.mem_of_getElem? (i := 1) rfl)
  have hmodel := Folder.find_keepAll_of_mem hkeep hfirst (List.mem_of_getElem? (i := 2) rfl)
  have hreport' := Folder.find_keepAll_of_mem hkeep' hsecond (List.mem_of_getElem? (i := 0) rfl)
  have htimeline' := Folder.find_keepAll_of_mem hkeep' hsecond (List.mem_of_getElem? (i := 1) rfl)
  -- both commands score the same attempts with the same model
  have hkept : w.folder.attempts o.data = f.attempts o.data :=
    Folder.attempts_eq <| Folder.find_keepAll_of_not_mem hkeep fun hmem =>
      hdata (List.mem_append_left _ hmem)
  obtain ⟨attempts', hattempts', hrescored⟩ := RescoreOptions.scored_of_bundle hmodel hrows
  obtain rfl : attempts = attempts' :=
    Except.ok.inj (hattempts.symm.trans (hkept.symm.trans hattempts'))
  obtain rfl : outcome.scored = rows := Except.ok.inj (hscored.symm.trans hrescored)
  rw [Scored.timeOrdered_eq_self hmap] at htimeline
  have hordered : StablyOrdered (fun a b : Attempt => a.time.notAfter b.time) attempts
      (outcome.scored.map (·.attempt)) := hmap ▸ stablyOrdered_inTimeOrder attempts
  have hranked := Scored.stablyOrdered_ranked outcome.scored
  refine ⟨attempts, outcome.scored, Scored.ranked outcome.scored, hattempts, hordered, hranked,
    hreport, htimeline, ?_, ?_, hreport'.trans hreport.symm, htimeline'.trans htimeline.symm,
    ?_, ?_⟩
  · exact Folder.lists_of_attempts hattempts ((hranked.perm.map _).trans hordered.perm)
  · exact Folder.lists_of_attempts hattempts hordered.perm
  · exact Folder.find_keepAll_of_not_mem hkeep' fun hmem =>
      hapart _ (List.mem_of_getElem? (i := 0) rfl) _ hmem rfl
  · exact Folder.find_keepAll_of_not_mem hkeep' fun hmem =>
      hapart _ (List.mem_of_getElem? (i := 1) rfl) _ hmem rfl

/-- Both commands end well where there is an outcome with a model that can be reopened, and all
outputs are files of their own. -/
theorem exists_rescored {later : Occasion} {o : ScoreOptions} {outcome : Outcome}
    {report timeline model report' timeline' : String} {top : Nat}
    (hplaces : ([o.data, report, timeline, model].map Place.ofPath).Nodup)
    (hfiles : ∀ place ∈ [report, timeline, model].map Place.ofPath, place.isFile)
    (hfiles' : ∀ place ∈ [report', timeline'].map Place.ofPath, place.isFile)
    (houtcome : o.outcome occasion f = .ok outcome)
    (hreopens : Bundle.ofJson outcome.bundle.toJson = .ok outcome.bundle) :
    ∃ w w', inFolder occasion (.score
        { o with output := some report, timeline := some timeline, model := some model }) f =
          (.ok (), w) ∧
      inFolder later (.rescore
        { model, data := o.data, output := some report', timeline := some timeline', top })
          w.folder = (.ok (), w') := by
  obtain ⟨attempts, hattempts, -, hscored⟩ := ScoreOptions.scored_outcome houtcome
  obtain ⟨hdata, hfirst⟩ := List.nodup_cons.mp hplaces
  let first : ScoreOptions :=
    { o with output := some report, timeline := some timeline, model := some model }
  obtain ⟨f', hkeep⟩ := f.keepAll_ok (show ∀ place ∈ Folder.places (first.outputs outcome),
    place.isFile from hfiles)
  obtain ⟨w, hscore, rfl⟩ := (ScoreOptions.inFolder_ok_iff (o := first)).mpr
    ⟨outcome, houtcome, hkeep⟩
  -- it leaves the model and the attempts for the other command
  have hmodel := Folder.find_keepAll_of_mem hkeep hfirst (List.mem_of_getElem? (i := 2) rfl)
  have hkept : w.folder.attempts o.data = f.attempts o.data :=
    Folder.attempts_eq (Folder.find_keepAll_of_not_mem hkeep hdata)
  let second : RescoreOptions :=
    { model, data := o.data, output := some report', timeline := some timeline', top }
  have hrows : second.scored w.folder = .ok outcome.scored :=
    RescoreOptions.scored_eq_ok hmodel hreopens (hkept.trans hattempts) hscored
  obtain ⟨f'', hkeep'⟩ := w.folder.keepAll_ok (show ∀ place ∈ Folder.places
    (second.outputs outcome.scored), place.isFile from hfiles')
  obtain ⟨w', hrescore, -⟩ := (RescoreOptions.inFolder_ok_iff (o := second)).mpr
    ⟨outcome.scored, hrows, hkeep'⟩
  exact ⟨w, w', hscore, hrescore⟩

/-- A score command without a trusted set has an outcome when its settings are accepted and there
is an attempt in its file. -/
theorem ScoreOptions.outcome_eq_run {o : ScoreOptions} {settings : Settings}
    {attempts : List Attempt} (htrusted : o.trusted = none)
    (hsettings : f.settings o.config = .ok settings)
    (hcheck : (o.overrides.apply settings).check = .ok ())
    (hattempts : f.attempts o.data = .ok attempts) (hne : attempts ≠ []) :
    o.outcome occasion f = (o.overrides.apply settings).run occasion
      ((o.overrides.apply settings).trust.select (inTimeOrder attempts))
      (inTimeOrder attempts) := by
  have hhistory : o.history (o.overrides.apply settings).trust f =
      .ok ((History.ofAttempts attempts).withPolicy (o.overrides.apply settings).trust) := by
    unfold history
    rw [hattempts, htrusted]
    rfl
  have hordered : ¬ (inTimeOrder attempts).isEmpty := by
    rwa [List.isEmpty_iff, inTimeOrder_eq_nil_iff]
  unfold outcome
  rw [hsettings, Except.ok_bind]
  dsimp only
  rw [hcheck, Except.ok_bind, hhistory, Except.ok_bind]
  unfold Settings.runHistory
  exact if_neg hordered

end Commands

/-! ## A table of three lines -/

/-- Three attempts, the first two at one instant and not far from one another, and the third
before them on the other side of the earth. -/
def threeLines : Folder where
  files := [("d.csv", ("id,created_at,latitude,longitude\n" ++
    "b,2024-03-01T12:00:00+02:00,48.1,11.5\n" ++
    "a,2024-03-01T10:00:00Z,47.9,11.6\n" ++
    "c,2024-02-29T23:59:59Z,-33.5,151.2\n").toList.map fun c => UInt8.ofNat c.toNat)]

/-- The name of an attempt, and its instant in seconds and nanoseconds. -/
def nameAndInstant (a : Attempt) : String × Int × Nat :=
  (a.id, a.time.unixSeconds, a.time.clock.nanos)

theorem attempts_threeLines : ∃ attempts, threeLines.attempts "d.csv" = .ok attempts ∧
    attempts.map nameAndInstant =
      [("b", 1709287200, 0), ("a", 1709287200, 0), ("c", 1709251199, 0)] ∧
    ∀ a ∈ attempts, a.NearOrigin := by
  have hread : (threeLines.attempts "d.csv").toOption.any fun attempts =>
      decide (attempts.map nameAndInstant =
        [("b", 1709287200, 0), ("a", 1709287200, 0), ("c", 1709251199, 0)]) &&
        attempts.all Attempt.inDegrees := by
    decide +kernel
  obtain ⟨attempts, hload, hcheck⟩ := Except.exists_ok_of_any hread
  rw [Bool.and_eq_true, decide_eq_true_eq, List.all_eq_true] at hcheck
  exact ⟨attempts, hload, hcheck.1, fun a ha => Attempt.nearOrigin_of_inDegrees (hcheck.2 a ha)⟩

/-- The third attempt is the first in time order, and the others stay as they are. -/
theorem names_inTimeOrder_threeLines {attempts : List Attempt}
    (h : attempts.map nameAndInstant =
      [("b", 1709287200, 0), ("a", 1709287200, 0), ("c", 1709251199, 0)]) :
    (inTimeOrder attempts).map (·.id) = ["c", "b", "a"] := by
  have hsorted : (inTimeOrder attempts).map nameAndInstant =
      (attempts.map nameAndInstant).mergeSort fun a b =>
        a.2.1 < b.2.1 || (a.2.1 == b.2.1 && a.2.2 ≤ b.2.2) :=
    List.map_mergeSort fun a _ b _ => rfl
  have hnames := congrArg (List.map Prod.fst) hsorted
  rw [h, List.map_map] at hnames
  refine hnames.trans ?_
  simp [List.mergeSort, List.MergeSort.Internal.splitInTwo]

/-- Score the lines with the standard settings. -/
def scoreLines : ScoreOptions where
  data := "d.csv"
  trusted := none
  config := none
  overrides := ⟨none, none, none, none, none⟩
  output := some "r.csv"
  timeline := some "t.csv"
  model := some "m.json"

/-- Score them again. -/
def rescoreLines : RescoreOptions where
  model := "m.json"
  data := "d.csv"
  output := some "r2.csv"
  timeline := some "t2.csv"
  top := 5

/-- Both commands end well on the lines. -/
theorem exists_rescored_lines [Elementary] [Elementary.Lawful] (occasion later : Occasion) :
    ∃ w w', inFolder occasion (.score scoreLines) threeLines = (.ok (), w) ∧
      inFolder later (.rescore rescoreLines) w.folder = (.ok (), w') := by
  obtain ⟨attempts, hattempts, hnames, hnear⟩ := attempts_threeLines
  have hthree : attempts.length = 3 := by
    rw [← List.length_map nameAndInstant, hnames]
    rfl
  have hne : attempts ≠ [] := List.ne_nil_of_length_pos (by omega)
  have hrun := Settings.run_eq occasion (Settings.standard.trust.select (inTimeOrder attempts))
    Settings.check_standard (mt inTimeOrder_eq_nil_iff.mp hne)
  have houtcome := (ScoreOptions.outcome_eq_run (o := scoreLines) rfl rfl Settings.check_standard
    hattempts hne).trans hrun
  -- what is trained on is some of the three attempts
  have htraining := Settings.trainingList_select_sublist Settings.standard.trust
    (inTimeOrder attempts)
  have hlength : (inTimeOrder attempts).length = 3 := (List.length_mergeSort attempts).trans hthree
  have hreopens := Settings.ofJson_of_run hrun (by decide)
    (htraining.length_le.trans (by rw [hlength]; decide))
    fun a ha => hnear a (List.mem_mergeSort.mp (htraining.subset ha))
  exact exists_rescored (o := scoreLines) (by decide +kernel) (by decide +kernel)
    (by decide +kernel) houtcome hreopens

/-- The lines are reported and rescored alike, each time in order. -/
theorem rescore_reproduces_lines : ∃ w w' attempts rows ranked,
    @inFolder Elementary.series ⟨.epoch, 0⟩ (.score scoreLines) threeLines = (.ok (), w) ∧
      @inFolder Elementary.series ⟨.epoch, 1⟩ (.rescore rescoreLines) w.folder = (.ok (), w') ∧
      threeLines.attempts "d.csv" = .ok attempts ∧
      StablyOrdered (fun a b : Attempt => a.time.notAfter b.time) attempts
        (rows.map (·.attempt)) ∧
      rows.map (·.attempt.id) = ["c", "b", "a"] ∧
      w'.folder.find "r2.csv" = .file (Report.commaSeparated ranked) ∧
      w'.folder.find "t2.csv" = .file (Report.commaSeparated rows) ∧
      Report.Lists (Report.commaSeparated ranked) ranked ∧
      Report.Lists (Report.commaSeparated rows) rows ∧
      w.folder.find "r.csv" = w'.folder.find "r2.csv" ∧
      w.folder.find "t.csv" = w'.folder.find "t2.csv" := by
  obtain ⟨w, w', hscore, hrescore⟩ := @exists_rescored_lines Elementary.series
    Elementary.lawful_series ⟨.epoch, 0⟩ ⟨.epoch, 1⟩
  obtain ⟨attempts, rows, ranked, hattempts, hrows, -, hreport, htimeline, hranked, hlisted,
    hreport', htimeline', -, -⟩ := @rescore_reproduces Elementary.series _ _ _ scoreLines _ _ _ _ _
      _ _ _ (by decide +kernel) hscore hrescore
  obtain ⟨attempts', hattempts', hnames, -⟩ := attempts_threeLines
  obtain rfl : attempts' = attempts := Except.ok.inj (hattempts'.symm.trans hattempts)
  have hordered : rows.map (·.attempt) = inTimeOrder attempts' :=
    hrows.unique Attempt.time_total (stablyOrdered_inTimeOrder attempts')
  have hids : rows.map (·.attempt.id) = ["c", "b", "a"] := by
    rw [← names_inTimeOrder_threeLines hnames, ← hordered, List.map_map]
    rfl
  exact ⟨w, w', attempts', rows, ranked, hscore, hrescore, hattempts, hrows, hids,
    hreport'.trans hreport, htimeline'.trans htimeline, hranked, hlisted, hreport'.symm,
    htimeline'.symm⟩

end Command

end LoginForest

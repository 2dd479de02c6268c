/-
  The ranking of scored attempts. It is a stable sort by the total order of numbers, which agrees
  with comparison wherever a number is less than another (`Number.not_lt_of_place`). Flags compare
  scores with one threshold, and no score of a run is anything but a number: so the flagged
  attempts stand in front of the others (`Outcome.ranking_flags_first`). In time order attempts
  stand by their instants, whatever offsets they were recorded in (`Scored.timeOrdered_retimed`).
-/
import LoginForest.Proofs.Forest.Threshold
import LoginForest.Proofs.Number.Extended
import LoginForest.Proofs.Scoring.Rescore
import LoginForest.Proofs.Time.Weekday
import LoginForest.Proofs.TimeOrder

namespace LoginForest

/-! ## Places and comparison -/

namespace Number

variable {x y : Float}

/-- The infinities have the places next to those of what is no number. -/
theorem place_of_infinite {negative : Bool} (h : parts x = .infinite negative) :
    place x = if negative then twoTo 52 - 1 else twoTo 63 + infinityBits := by
  simp only [place, toNat_toBits_of_infinite h, infinityBits, twoTo_52, twoTo_63, twoTo_64]
  cases negative <;> rfl

/-- The finite numbers have the places between. -/
theorem place_of_isFinite (h : x.isFinite) :
    twoTo 52 ≤ place x ∧ place x < twoTo 63 + infinityBits := by
  obtain ⟨negative, m, e, hp⟩ := isFinite_iff.mp h
  obtain ⟨⟨hm, hlow, -⟩, hhigh, -⟩ := encode_parts hp
  rw [place_of_parts hp]
  simp only [encode, infinityBits, twoTo_52, twoTo_53, twoTo_63, Bool.false_eq_true,
    if_false] at hm ⊢
  split <;> omega

/-- Numbers are placed as they are ordered. -/
theorem extended_le_of_place (hx : ¬ x.isNaN) (hy : ¬ y.isNaN) (h : place x ≤ place y) :
    extended x ≤ extended y := by
  have hends : twoTo 52 - 1 < twoTo 63 + infinityBits := by decide
  have hpos := twoTo_pos 52
  rw [isNaN_iff] at hx hy
  cases hpx : parts x with
  | nan => exact absurd hpx hx
  | infinite negative =>
    have hplace := place_of_infinite hpx
    cases negative with
    | true =>
      rw [extended, hpx]
      exact bot_le
    | false =>
      -- nothing else is placed as high
      cases hpy : parts y with
      | nan => exact absurd hpy hy
      | infinite negative' =>
        have hplace' := place_of_infinite hpy
        cases negative' with
        | false => rw [extended, extended, hpx, hpy]
        | true =>
          rw [if_neg Bool.false_ne_true] at hplace
          rw [if_pos rfl] at hplace'
          omega
      | finite n m e =>
        have hfinite := (place_of_isFinite (isFinite_of_parts hpy)).2
        rw [if_neg Bool.false_ne_true] at hplace
        omega
  | finite n m e =>
    have hfinite := isFinite_of_parts hpx
    rw [extended_of_isFinite hfinite]
    cases hpy : parts y with
    | nan => exact absurd hpy hy
    | infinite negative =>
      have hplace' := place_of_infinite hpy
      rw [extended, hpy]
      cases negative with
      | false => exact WithBot.coe_le_coe.mpr le_top
      | true =>
        have hlow := (place_of_isFinite hfinite).1
        rw [if_pos rfl] at hplace'
        omega
    | finite n' m' e' =>
      have hfinite' := isFinite_of_parts hpy
      rw [extended_of_isFinite hfinite']
      exact WithBot.coe_le_coe.mpr
        (WithTop.coe_le_coe.mpr (value_le_of_place hfinite hfinite' h))

/-- What is placed before a number is not greater. -/
theorem not_lt_of_place (h : place x ≤ place y) : ¬ y < x := by
  intro hlt
  obtain ⟨hy, hx⟩ := not_isNaN_of_lt hlt
  exact (not_lt_iff_extended hy hx).mpr (extended_le_of_place hx hy h) hlt

/-- What is greater than something is still less than what is placed after it. -/
theorem lt_of_lt_of_place {t : Float} (ht : t < x) (hy : ¬ y.isNaN) (h : place x ≤ place y) :
    t < y := by
  obtain ⟨htn, hx⟩ := not_isNaN_of_lt ht
  rw [lt_iff_extended htn hy]
  exact ((lt_iff_extended htn hx).mp ht).trans_le (extended_le_of_place hx hy h)

end Number

/-! ## Ranked rows -/

/-- Where whatever stands before an element with a property has it too, the elements with the
property are as many in front. -/
theorem take_countP {α : Type} {p : α → Bool} {l : List α} (h : l.Pairwise fun a b => p b → p a) :
    l.take (l.countP p) = l.filter p ∧ ∀ b ∈ l.drop (l.countP p), p b = false := by
  induction l with
  | nil => exact ⟨rfl, List.forall_mem_nil _⟩
  | cons a l ih =>
    obtain ⟨hfirst, hrest⟩ := List.pairwise_cons.mp h
    by_cases ha : p a
    · rw [List.countP_cons_of_pos ha, List.filter_cons_of_pos ha, List.take_succ_cons,
        List.drop_succ_cons, (ih hrest).1]
      exact ⟨rfl, (ih hrest).2⟩
    · have hnone : ∀ b ∈ a :: l, ¬ p b :=
        List.forall_mem_cons.mpr ⟨ha, fun b hb hpb => ha (hfirst b hb hpb)⟩
      rw [List.countP_eq_zero.mpr hnone, List.filter_eq_nil_iff.mpr hnone]
      exact ⟨rfl, fun b hb => Bool.eq_false_iff.mpr (hnone b hb)⟩

namespace Scored

theorem rank_trans (a b c : Scored)
    (hab : decide (Number.place b.score ≤ Number.place a.score))
    (hbc : decide (Number.place c.score ≤ Number.place b.score)) :
    decide (Number.place c.score ≤ Number.place a.score) := by
  rw [decide_eq_true_eq] at hab hbc ⊢
  exact Nat.le_trans hbc hab

theorem rank_total (a b : Scored) : decide (Number.place b.score ≤ Number.place a.score) ||
    decide (Number.place a.score ≤ Number.place b.score) := by
  rw [Bool.or_eq_true, decide_eq_true_eq, decide_eq_true_eq]
  exact Nat.le_total _ _

theorem stablyOrdered_ranked (rows : List Scored) :
    StablyOrdered (fun a b => Number.place b.score ≤ Number.place a.score) rows (ranked rows) :=
  stablyOrdered_mergeSort rank_trans rank_total rows

theorem pairwise_ranked (rows : List Scored) :
    (ranked rows).Pairwise fun a b => Number.place b.score ≤ Number.place a.score :=
  (stablyOrdered_ranked rows).ascending.imp of_decide_eq_true

theorem ranked_filter (p : Scored → Bool) (rows : List Scored) :
    (ranked rows).filter p = ranked (rows.filter p) :=
  filter_mergeSort rank_trans rank_total p rows

/-- What is left out of the first rows of a ranking has no greater score than any of these. -/
theorem ranked_drop {rows : List Scored} {n : Nat} {a b : Scored} (ha : a ∈ (ranked rows).take n)
    (hb : b ∈ (ranked rows).drop n) :
    Number.place b.score ≤ Number.place a.score ∧ ¬ a.score < b.score := by
  have hpairwise := pairwise_ranked rows
  rw [← List.take_append_drop n (ranked rows), List.pairwise_append] at hpairwise
  have hplace := hpairwise.2.2 a ha b hb
  exact ⟨hplace, Number.not_lt_of_place hplace⟩

/-- Rows that are flagged above a threshold are ranked before the others. -/
theorem ranked_flagged {rows : List Scored} {t : Float}
    (hflags : ∀ r ∈ rows, r.flagged = decide (t < r.score))
    (hnumbers : ∀ r ∈ rows, ¬ r.score.isNaN) :
    (ranked rows).take (rows.countP (·.flagged)) = ranked (rows.filter (·.flagged)) ∧
      ∀ r ∈ (ranked rows).drop (rows.countP (·.flagged)), r.flagged = false := by
  have hperm := (stablyOrdered_ranked rows).perm
  have hbefore : (ranked rows).Pairwise fun a b => b.flagged → a.flagged := by
    refine (pairwise_ranked rows).imp_of_mem fun {a b} ha hb hplace hflag => ?_
    have ha := hperm.mem_iff.mp ha
    rw [hflags b (hperm.mem_iff.mp hb), decide_eq_true_eq] at hflag
    rw [hflags a ha, decide_eq_true_eq]
    exact Number.lt_of_lt_of_place hflag (hnumbers a ha) hplace
  have hprefix := take_countP hbefore
  rwa [hperm.countP_eq, ranked_filter] at hprefix

/-! ## Time order -/

/-- The row with another time. -/
def retimed (g : Time.Timestamp → Time.Timestamp) (r : Scored) : Scored :=
  { r with attempt := { r.attempt with time := g r.attempt.time } }

theorem stablyOrdered_timeOrdered (rows : List Scored) :
    StablyOrdered (fun a b => a.attempt.time.notAfter b.attempt.time) rows (timeOrdered rows) := by
  refine stablyOrdered_mergeSort ?_ ?_ rows
  · exact fun a b c => Attempt.time_trans a.attempt b.attempt c.attempt
  · exact fun a b => Attempt.time_total a.attempt b.attempt

/-- Only the instants decide on the time order. -/
theorem timeOrdered_retimed {g : Time.Timestamp → Time.Timestamp} (h : ∀ t, (g t).sameInstant t)
    (rows : List Scored) :
    timeOrdered (rows.map (retimed g)) = (timeOrdered rows).map (retimed g) := by
  have hinstant : ∀ t, (g t).unixSeconds = t.unixSeconds ∧ (g t).clock.nanos = t.clock.nanos := by
    intro t
    have ht := h t
    rwa [Time.Timestamp.sameInstant, Bool.and_eq_true, beq_iff_eq, beq_iff_eq] at ht
  refine (List.map_mergeSort fun a _ b _ => ?_).symm
  show a.attempt.time.notAfter b.attempt.time = (g a.attempt.time).notAfter (g b.attempt.time)
  unfold Time.Timestamp.notAfter
  rw [(hinstant _).1, (hinstant _).1, (hinstant _).2, (hinstant _).2]

end Scored

/-! ## Rankings of a run -/

namespace Settings

variable [Elementary] {s : Settings} {occasion : Occasion} {trusted all : List Attempt}
  {o : Outcome}

/-- The scores of a run are numbers. A word of 64 bits counts the trees and the attempts. -/
theorem not_isNaN_of_run [Elementary.Lawful] (h : s.run occasion trusted all = .ok o)
    (htrees : s.trees ≤ 2 ^ 64) (hlength : (trainingList trusted all).length ≤ 2 ^ 64) :
    ∀ r ∈ o.scored, ¬ r.score.isNaN := by
  obtain ⟨hall, hcheck, rfl⟩ := run_eq_ok_iff.mp h
  have hpos : 1 ≤ (trainingList trusted all).length :=
    List.length_pos_iff.mpr (trainingList_ne_nil trusted hall)
  have hscores := s.length_scoresOf occasion.chance (trainingList trusted all) all
  have hflags := ((s.forestOf occasion.chance (trainingList trusted all)).length_flag
    (s.scoresOf occasion.chance (trainingList trusted all) all)).trans hscores
  intro r hr
  have hmem : r.score ∈ s.scoresOf occasion.chance (trainingList trusted all) all := by
    rw [← Scored.map_score_zip hscores hflags]
    exact List.mem_map_of_mem hr
  obtain ⟨row, -, hrow⟩ := List.mem_map.mp hmem
  rw [← hrow]
  refine Number.not_isNaN_of_isFinite
    (Detector.scoreRow_grown_within ?_ ?_ ?_ ?_ occasion.chance row).1
  · rw [trees_detector]
    exact le_max_right _ _
  · rw [trees_detector]
    exact max_le htrees (by decide)
  · rwa [height_scaledMatrix]
  · rwa [height_scaledMatrix]

/-- A run ranks what it flags before the rest. -/
theorem top_flagged_of_run (h : s.run occasion trusted all = .ok o)
    (hnumbers : ∀ r ∈ o.scored, ¬ r.score.isNaN) :
    o.top o.summary.flagged = Scored.ranked o.flagged ∧
      ∀ r ∈ (Scored.ranked o.scored).drop o.summary.flagged, r.flagged = false := by
  obtain ⟨-, -, rfl⟩ := run_eq_ok_iff.mp h
  have haccounts := s.accounts_outcomeOf occasion trusted all
  have hflagged := Scored.ranked_flagged haccounts.flags hnumbers
  rwa [← haccounts.flagged] at hflagged

end Settings

/-- The forest of five attempts, evaluated: its medians, its quartiles and its threshold are read
off sorted lists. -/
theorem Settings.flag_fiveLogins :
    (@Settings.forestOf Elementary.series Settings.fewTrees 0 Settings.fiveLogins).flag
        (@Settings.scoresOf Elementary.series Settings.fewTrees 0 Settings.fiveLogins
          Settings.fiveLogins) = [false, false, false, false, true] := by
  unfold Settings.scoresOf Settings.forestOf
  rw [@Detector.flag_grown Elementary.series _ _ rfl]
  simp only [Settings.scaledMatrix, Settings.scalingOf, Scaling.ofMatrix, Scaling.columnStats,
    Features.ofAttempts, Background.ofAttempts, middle, median, quantile,
    ascending_eq_insertionSort]
  decide +kernel

namespace Outcome

/-- A ranking has the rows with the highest score first, those of one score in the order that
they had. Its first rows are as many as asked for or all, a smaller number of them in front of a
larger, and none that is left out has a greater score. No score of a run is anything but a
number, and where this is so the ranking has the flagged rows in front, as many as the summary
says. In time order the rows stand by the instants of their attempts, those of one instant in the
order that they had; the offsets from UTC do not matter. A word of 64 bits counts the trees and
the attempts. -/
theorem ranking_flags_first [Elementary] [Elementary.Lawful] :
    (∀ rows : List Scored, StablyOrdered
      (fun a b => Number.place b.score ≤ Number.place a.score) rows (Scored.ranked rows)) ∧
    (∀ (o : Outcome) (n : Nat), (o.top n).length = min n o.scored.length ∧
      o.top n ++ (Scored.ranked o.scored).drop n = Scored.ranked o.scored ∧
      (∀ a ∈ o.top n, ∀ b ∈ (Scored.ranked o.scored).drop n,
        Number.place b.score ≤ Number.place a.score ∧ ¬ a.score < b.score) ∧
      ∀ m, n ≤ m → o.top n <+: o.top m) ∧
    (∀ (s : Settings) (occasion : Occasion) (trusted all : List Attempt) (o : Outcome),
      s.run occasion trusted all = .ok o →
        (s.trees ≤ 2 ^ 64 → (Settings.trainingList trusted all).length ≤ 2 ^ 64 →
          ∀ r ∈ o.scored, ¬ r.score.isNaN) ∧
        ((∀ r ∈ o.scored, ¬ r.score.isNaN) →
          o.top o.summary.flagged = Scored.ranked o.flagged ∧
          ∀ r ∈ (Scored.ranked o.scored).drop o.summary.flagged, r.flagged = false)) ∧
    ∀ rows : List Scored, StablyOrdered
        (fun a b => a.attempt.time.notAfter b.attempt.time) rows (Scored.timeOrdered rows) ∧
      ∀ g : Time.Timestamp → Time.Timestamp, (∀ t, (g t).sameInstant t) →
        Scored.timeOrdered (rows.map (Scored.retimed g)) =
          (Scored.timeOrdered rows).map (Scored.retimed g) := by
  refine ⟨Scored.stablyOrdered_ranked, fun o n => ⟨?_, List.take_append_drop n _, ?_, ?_⟩, ?_, ?_⟩
  · rw [top, List.length_take, (Scored.stablyOrdered_ranked o.scored).perm.length_eq]
  · exact fun a ha b hb => Scored.ranked_drop ha hb
  · exact fun m hnm => List.take_prefix_take_left hnm
  · intro s occasion trusted all o hrun
    exact ⟨Settings.not_isNaN_of_run hrun, Settings.top_flagged_of_run hrun⟩
  · exact fun rows => ⟨Scored.stablyOrdered_timeOrdered rows, fun g hg =>
      Scored.timeOrdered_retimed hg rows⟩

/-- Of five attempts the last one is flagged, and ranked in front of the others. Their time order is
that of their times in UTC. -/
theorem ranking_flags_first_fiveLogins : ∃ o,
    @Settings.run Elementary.series Settings.fewTrees ⟨.epoch, 0⟩ [] Settings.fiveLogins = .ok o ∧
      (∀ r ∈ o.scored, ¬ r.score.isNaN) ∧
      o.flags = [false, false, false, false, true] ∧ o.summary.flagged = 1 ∧
      o.top 1 = Scored.ranked o.flagged ∧
      (∀ r ∈ (Scored.ranked o.scored).drop 1, r.flagged = false) ∧
      o.top 1 <+: o.top 2 ∧
      Scored.timeOrdered (o.scored.map (Scored.retimed Time.Timestamp.toUtc)) =
        (Scored.timeOrdered o.scored).map (Scored.retimed Time.Timestamp.toUtc) := by
  have hrun := @Settings.run_eq Elementary.series Settings.fewTrees ⟨.epoch, 0⟩ []
    Settings.fiveLogins Settings.check_fewTrees (List.cons_ne_nil _ _)
  obtain ⟨-, htop, hruns, htime⟩ :=
    @ranking_flags_first Elementary.series Elementary.lawful_series
  obtain ⟨hnumbers, hflagged⟩ := hruns _ _ _ _ _ hrun
  have hscores := hnumbers (by decide) (by decide)
  obtain ⟨hfirst, hrest⟩ := hflagged hscores
  have hflags := Settings.flag_fiveLogins
  have hone : (@Settings.outcomeOf Elementary.series Settings.fewTrees ⟨.epoch, 0⟩ []
      Settings.fiveLogins).summary.flagged = 1 := congrArg (List.countP id) hflags
  rw [hone] at hfirst hrest
  exact ⟨_, hrun, hscores,
    (@Settings.scores_flags_outcomeOf Elementary.series _ _ _ _).2.trans hflags, hone, hfirst,
    hrest, (htop _ 1).2.2.2 2 (by decide), (htime _).2 _ Time.Timestamp.sameInstant_toUtc⟩

end Outcome

end LoginForest

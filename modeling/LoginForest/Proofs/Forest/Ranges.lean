/-
  Ranges of columns. The range of a column is between its smallest and its largest number
  (`low_ofRows`, `high_ofRows`), values that are no numbers aside; and it is open just when the
  column has two such numbers with a finite distance (`isOpen_iff_hasSpan`).
-/
import LoginForest.Proofs.Forest.Checked
import LoginForest.Proofs.Number.Extended

namespace LoginForest

open Number

/-- Two of the values lie a finite distance apart, and none lies beyond them. -/
def HasSpan (column : List Float) : Prop :=
  ∃ low ∈ column, ∃ high ∈ column, (∀ v ∈ column, ¬ v < low ∧ ¬ high < v) ∧ low < high ∧
    (high - low).isFinite

/-! ## The first of some values -/

/-- `m` is a number, and comes first among the values by the order of `key`. -/
structure IsFirst {κ : Type} [LE κ] (key : Float → κ) (values : List Float) (m : Float) :
    Prop where
  isNumber : ¬ m.isNaN
  le : ∀ v ∈ values, ¬ v.isNaN → key m ≤ key v

/-- Values that come first have one key. -/
theorem IsFirst.key_eq {κ : Type} [PartialOrder κ] {key : Float → κ} {values : List Float}
    {m m' : Float} (h : IsFirst key values m) (h' : IsFirst key values m') (hm : m ∈ values)
    (hm' : m' ∈ values) : key m = key m' :=
  le_antisymm (h.le m' hm' h'.isNumber) (h'.le m hm h.isNumber)

/-- Of a start and some values, the one that is put in the place of all others is first. -/
theorem isFirst_foldl {κ : Type} [LinearOrder κ] {key : Float → κ} (before : Float → Float → Prop)
    [DecidableRel before] (hnumbers : ∀ {a b}, before a b → ¬ a.isNaN ∧ ¬ b.isNaN)
    (hkey : ∀ {a b}, ¬ a.isNaN → ¬ b.isNaN → (before a b ↔ key a < key b)) (values : List Float)
    {start : Float} (hstart : ¬ start.isNaN) :
    IsFirst key (start :: values) (values.foldl (fun m v => if before v m then v else m) start) ∧
      values.foldl (fun m v => if before v m then v else m) start ∈ start :: values := by
  induction values generalizing start with
  | nil => exact ⟨⟨hstart, by simp⟩, List.mem_cons_self⟩
  | cons v values ih =>
    rw [List.foldl_cons]
    by_cases hv : before v start
    · obtain ⟨⟨hnumber, hle⟩, hmem⟩ := ih (hnumbers hv).1
      rw [if_pos hv]
      refine ⟨⟨hnumber, ?_⟩, List.mem_cons_of_mem _ hmem⟩
      rw [List.forall_mem_cons]
      refine ⟨fun _ => (hle v List.mem_cons_self (hnumbers hv).1).trans ?_, hle⟩
      exact ((hkey (hnumbers hv).1 hstart).mp hv).le
    · obtain ⟨⟨hnumber, hle⟩, hmem⟩ := ih hstart
      rw [List.forall_mem_cons] at hle
      rw [if_neg hv]
      refine ⟨⟨hnumber, ?_⟩, ?_⟩
      · rw [List.forall_mem_cons, List.forall_mem_cons]
        refine ⟨hle.1, fun hvn => (hle.1 hstart).trans ?_, hle.2⟩
        exact not_lt.mp ((hkey hvn hstart).not.mp hv)
      · rw [List.mem_cons, List.mem_cons]
        exact (List.mem_cons.mp hmem).imp_right .inr

namespace Range

section Ends

variable (feature : Nat) (rows : List (List Float))

/-- The range of a column. -/
theorem ofRows_eq : ofRows feature rows =
    (rows.filterMap (·[feature]?)).foldl widen (empty feature) := rfl

theorem low_foldl_widen (values : List Float) (r : Range) :
    (values.foldl widen r).low = values.foldl (fun m v => if v < m then v else m) r.low := by
  induction values generalizing r with
  | nil => rfl
  | cons v values ih => exact ih (r.widen v)

theorem high_foldl_widen (values : List Float) (r : Range) :
    (values.foldl widen r).high = values.foldl (fun m v => if m < v then v else m) r.high := by
  induction values generalizing r with
  | nil => rfl
  | cons v values ih => exact ih (r.widen v)

/-- The start of the lower end lies above all numbers. -/
theorem parts_low_empty : parts (empty feature).low = .infinite false :=
  show parts (Float.ofBits 0x7ff0000000000000) = .infinite false by decide +kernel

/-- The start of the upper end lies below all numbers. -/
theorem parts_high_empty : parts (empty feature).high = .infinite true :=
  parts_neg_infinite (parts_low_empty feature)

/-- The lower end is the smallest number of the column, or its start. -/
theorem low_ofRows :
    IsFirst extended ((empty feature).low :: rows.filterMap (·[feature]?))
        (ofRows feature rows).low ∧
      (ofRows feature rows).low ∈ (empty feature).low :: rows.filterMap (·[feature]?) := by
  rw [ofRows_eq, low_foldl_widen]
  refine isFirst_foldl (· < ·) not_isNaN_of_lt lt_iff_extended _ ?_
  rw [isNaN_iff, parts_low_empty]
  exact Parts.noConfusion

/-- The upper end is the largest number of the column, or its start. -/
theorem high_ofRows :
    IsFirst (OrderDual.toDual ∘ extended) ((empty feature).high :: rows.filterMap (·[feature]?))
        (ofRows feature rows).high ∧
      (ofRows feature rows).high ∈ (empty feature).high :: rows.filterMap (·[feature]?) := by
  rw [ofRows_eq, high_foldl_widen]
  refine isFirst_foldl (fun a b => b < a) (fun h => (not_isNaN_of_lt h).symm)
    (fun ha hb => lt_iff_extended hb ha) _ ?_
  rw [isNaN_iff, parts_high_empty]
  exact Parts.noConfusion

end Ends

section Span

variable {feature : Nat} {rows : List (List Float)}

theorem hasSpan_of_isOpen (h : (ofRows feature rows).isOpen) :
    HasSpan (rows.filterMap (·[feature]?)) := by
  obtain ⟨hlow, hlowMem⟩ := low_ofRows feature rows
  obtain ⟨hhigh, hhighMem⟩ := high_ofRows feature rows
  have hstart := parts_low_empty feature
  have hstart' := parts_high_empty feature
  generalize ofRows feature rows = r at *
  generalize rows.filterMap (·[feature]?) = column at *
  rw [isOpen, Bool.and_eq_true, decide_eq_true_eq] at h
  obtain ⟨hlt, hdistance⟩ := h
  -- ends at a finite distance are not the infinities at the start
  obtain ⟨hfinite', hfinite⟩ := isFinite_of_sub hdistance
  have hmem : r.low ∈ column := by
    refine (List.mem_cons.mp hlowMem).resolve_left fun heq => ?_
    obtain ⟨n, m, e, hp⟩ := isFinite_iff.mp (heq ▸ hfinite)
    cases hstart.symm.trans hp
  have hmem' : r.high ∈ column := by
    refine (List.mem_cons.mp hhighMem).resolve_left fun heq => ?_
    obtain ⟨n, m, e, hp⟩ := isFinite_iff.mp (heq ▸ hfinite')
    cases hstart'.symm.trans hp
  refine ⟨r.low, hmem, r.high, hmem', fun v hv => ⟨?_, ?_⟩, hlt, hdistance⟩
  · intro hless
    obtain ⟨hn, hn'⟩ := not_isNaN_of_lt hless
    exact absurd (hlow.le v (List.mem_cons_of_mem _ hv) hn)
      ((lt_iff_extended hn hn').mp hless).not_ge
  · intro hless
    obtain ⟨hn', hn⟩ := not_isNaN_of_lt hless
    exact absurd (hhigh.le v (List.mem_cons_of_mem _ hv) hn)
      ((lt_iff_extended hn' hn).mp hless).not_ge

theorem isOpen_of_hasSpan (h : HasSpan (rows.filterMap (·[feature]?))) :
    (ofRows feature rows).isOpen := by
  obtain ⟨hlow, hlowMem⟩ := low_ofRows feature rows
  obtain ⟨hhigh, hhighMem⟩ := high_ofRows feature rows
  have hstart := parts_low_empty feature
  have hstart' := parts_high_empty feature
  generalize ofRows feature rows = r at *
  generalize rows.filterMap (·[feature]?) = column at *
  generalize empty feature = start at *
  obtain ⟨low, hmem, high, hmem', hbeyond, hlt, hdistance⟩ := h
  obtain ⟨hfinite', hfinite⟩ := isFinite_of_sub hdistance
  have hn := not_isNaN_of_isFinite hfinite
  have hn' := not_isNaN_of_isFinite hfinite'
  have hfirst : IsFirst extended (start.low :: column) low := by
    refine ⟨hn, List.forall_mem_cons.mpr ⟨fun _ => ?_, fun v hv hvn => ?_⟩⟩
    · show extended low ≤ extended start.low
      rw [extended, extended, hstart]
      exact le_top
    · exact (not_lt_iff_extended hvn hn).mp (hbeyond v hv).1
  have hlast : IsFirst (OrderDual.toDual ∘ extended) (start.high :: column) high := by
    refine ⟨hn', List.forall_mem_cons.mpr ⟨fun _ => ?_, fun v hv hvn => ?_⟩⟩
    · show extended start.high ≤ extended high
      rw [extended, hstart']
      exact bot_le
    · exact (not_lt_iff_extended hn' hvn).mp (hbeyond v hv).2
  -- the ends have the places of the two values, though zeros may differ in their signs
  obtain ⟨hr, hvalue⟩ := isFinite_of_extended hfinite
    (hlow.key_eq hfirst hlowMem (List.mem_cons_of_mem _ hmem))
  obtain ⟨hr', hvalue'⟩ := isFinite_of_extended hfinite'
    (hhigh.key_eq hlast hhighMem (List.mem_cons_of_mem _ hmem'))
  rw [isOpen, Bool.and_eq_true, decide_eq_true_eq, lt_iff_value hr hr', hvalue, hvalue']
  exact ⟨(lt_iff_value hfinite hfinite').mp hlt,
    isFinite_sub_of_value_eq hr' hr hvalue' hvalue hdistance⟩

/-- A range is open when its column has a span. -/
theorem isOpen_iff_hasSpan :
    (ofRows feature rows).isOpen ↔ HasSpan (rows.filterMap (·[feature]?)) :=
  ⟨hasSpan_of_isOpen, isOpen_of_hasSpan⟩

end Span

end Range

end LoginForest

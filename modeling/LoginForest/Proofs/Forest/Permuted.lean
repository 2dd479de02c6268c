/-
  Trees and the order of their rows. The ends of a column's range are its smallest and its largest
  number, wherever these stand; only two zeros of different signs are told apart by which comes
  first (`Range.ofRows_eq_of_perm`). So rows in any order have the same open ranges, the same is
  drawn, the same rows go to either side, and the generator is handed on alike
  (`Tree.grow_eq_of_perm`). The main statement puts it in terms of two matrices and of the indices
  of their rows (`Tree.build_eq_of_perm`).
-/
import LoginForest.Proofs.Forest.Descent
import LoginForest.Proofs.Forest.Ranges

namespace LoginForest

open Number
open LoginForest.Random (Draws)

/-! ## Zeros in a column -/

/-- Both zeros are among the values. -/
def MixesZeros (values : List Float) : Prop := ofNat 0 ∈ values ∧ -ofNat 0 ∈ values

theorem MixesZeros.mono {values values' : List Float} (hsub : values ⊆ values')
    (h : MixesZeros values) : MixesZeros values' :=
  ⟨hsub h.1, hsub h.2⟩

/-- An infinity is neither zero. -/
theorem mixesZeros_cons_infinite {start : Float} {negative : Bool} {values : List Float}
    (hstart : parts start = .infinite negative) :
    MixesZeros (start :: values) ↔ MixesZeros values := by
  have hne : ∀ z : Float, z.isFinite → z ≠ start := by
    rintro z hz rfl
    obtain ⟨n, m, e, hp⟩ := isFinite_iff.mp hz
    cases hstart.symm.trans hp
  rw [MixesZeros, MixesZeros, List.mem_cons, List.mem_cons, or_iff_right (hne _ isFinite_zero),
    or_iff_right (hne _ (isFinite_neg isFinite_zero))]

/-! ## Ranges -/

/-- What comes first among some values is the same in any order of them, if not both zeros are
among them. -/
theorem IsFirst.eq_of_perm {κ : Type} [PartialOrder κ] {key : Float → κ}
    (hkey : ∀ {v w}, key v = key w → extended v = extended w) {values values' : List Float}
    (hperm : values'.Perm values) (hzeros : ¬ MixesZeros values) {m m' : Float}
    (h : IsFirst key values m) (hm : m ∈ values) (h' : IsFirst key values' m')
    (hm' : m' ∈ values') : m' = m := by
  have hm' : m' ∈ values := hperm.subset hm'
  have hfirst : IsFirst key values m' :=
    ⟨h'.isNumber, fun v hv hnumber => h'.le v (hperm.symm.subset hv) hnumber⟩
  rcases eq_or_zeros_of_extended h'.isNumber h.isNumber (hkey (hfirst.key_eq h hm' hm)) with
    heq | ⟨rfl, rfl⟩ | ⟨rfl, rfl⟩
  · exact heq
  · exact absurd ⟨hm', hm⟩ hzeros
  · exact absurd ⟨hm, hm'⟩ hzeros

theorem Range.ofRows_eq_of_perm (feature : Nat) {rows rows' : List (List Float)}
    (h : rows'.Perm rows) (hzeros : ¬ MixesZeros (rows.filterMap (·[feature]?))) :
    ofRows feature rows' = ofRows feature rows := by
  have hcolumn := h.filterMap (·[feature]?)
  obtain ⟨hlow, hlowMem⟩ := low_ofRows feature rows
  obtain ⟨hlow', hlowMem'⟩ := low_ofRows feature rows'
  obtain ⟨hhigh, hhighMem⟩ := high_ofRows feature rows
  obtain ⟨hhigh', hhighMem'⟩ := high_ofRows feature rows'
  have hlowEq : (ofRows feature rows').low = (ofRows feature rows).low :=
    hlow.eq_of_perm (fun heq => heq) (hcolumn.cons _)
      ((mixesZeros_cons_infinite (parts_low_empty feature)).not.mpr hzeros) hlowMem hlow' hlowMem'
  have hhighEq : (ofRows feature rows').high = (ofRows feature rows).high :=
    hhigh.eq_of_perm (fun heq => OrderDual.toDual.injective heq) (hcolumn.cons _)
      ((mixesZeros_cons_infinite (parts_high_empty feature)).not.mpr hzeros) hhighMem hhigh'
      hhighMem'
  have hfeature := (feature_ofRows feature rows').trans (feature_ofRows feature rows).symm
  generalize ofRows feature rows' = r' at *
  generalize ofRows feature rows = r at *
  cases r'
  cases r
  dsimp only at hlowEq hhighEq hfeature
  rw [hlowEq, hhighEq, hfeature]

/-! ## Growth -/

namespace Tree

/-- No column of some rows has both zeros. -/
def OneZero (width : Nat) (rows : List (List Float)) : Prop :=
  ∀ feature < width, ¬ MixesZeros (rows.filterMap (·[feature]?))

theorem OneZero.filter {width : Nat} {rows : List (List Float)} (h : OneZero width rows)
    (p : List Float → Bool) : OneZero width (rows.filter p) :=
  fun feature hfeature hmix =>
    h feature hfeature (hmix.mono (List.filter_sublist.filterMap _).subset)

section Growth

variable {γ : Type} [Draws γ] {width : Nat} {rows rows' : List (List Float)}

theorem openRanges_eq_of_perm (h : rows'.Perm rows) (hzeros : OneZero width rows) :
    openRanges width rows' = openRanges width rows := by
  unfold openRanges
  refine congrArg (List.filter Range.isOpen) (List.map_congr_left fun feature hfeature => ?_)
  exact Range.ofRows_eq_of_perm feature h (hzeros feature (List.mem_range.mp hfeature))

theorem drawn?_eq_of_perm (h : rows'.Perm rows) (hzeros : OneZero width rows) (g : γ) :
    drawn? width rows' g = drawn? width rows g := by
  rw [drawn?, drawn?, openRanges_eq_of_perm h hzeros]

/-- Rows in another order grow to the same tree, and leave the same generator. -/
theorem grow_eq_of_perm (room depth : Nat) (h : rows'.Perm rows) (hzeros : OneZero width rows)
    (g : γ) : grow width room depth rows' g = grow width room depth rows g := by
  induction room generalizing depth rows rows' g with
  | zero => rw [grow, grow, h.length_eq]
  | succ room ih =>
    have hsplit : splitAs (γ := γ) width room depth rows' = splitAs width room depth rows := by
      funext draw
      have hleft := h.filter (goesLeft draw.1.feature draw.2.1)
      have hright := h.filter fun row => !goesLeft draw.1.feature draw.2.1 row
      -- the right part grows with the generator that the left one leaves
      rw [splitAs, splitAs]
      dsimp only
      rw [hleft.isEmpty_eq, hright.isEmpty_eq, h.length_eq,
        ih (depth + 1) hleft (hzeros.filter _), ih (depth + 1) hright (hzeros.filter _)]
    rw [grow_succ, grow_succ, h.length_eq, drawn?_eq_of_perm h hzeros, hsplit]

end Growth

/-! ## Trees of matrices -/

/-- Indices that list the same rows of two matrices of one width, in whatever order, give the same
tree and leave the same generator, whatever is drawn. No column of the rows has both zeros. -/
theorem build_eq_of_perm {γ : Type} [Draws γ] {x x' : Matrix Float} {indices indices' : List Nat}
    (hwidth : x'.width = x.width) (h : (x'.select indices').Perm (x.select indices))
    (hzeros : OneZero x.width (x.select indices)) (depth limit : Nat) (g : γ) :
    build x' indices' depth limit g = build x indices depth limit g := by
  rw [build, build, hwidth]
  exact grow_eq_of_perm (limit - depth) depth h hzeros g

/-- The rows of `mixedColumn` from the last to the first, and one more that is not asked for. -/
def reversedColumn : Matrix Float where
  width := 1
  rows := [[ofNat 1], [ofNat 0 / ofNat 0], [ofNat 0], [-ofNat 0]]
  width_eq := by simp

/-- What is no number is listed twice, and the other zero is not listed. -/
theorem build_eq_of_perm_reversedColumn :
    build reversedColumn [1, 0, 1, 2] 1 4 (Random.Generator.ofSeed 7) =
      build mixedColumn [0, 1, 2, 1] 1 4 (Random.Generator.ofSeed 7) := by
  have hperm : (reversedColumn.select [1, 0, 1, 2]).Perm (mixedColumn.select [0, 1, 2, 1]) :=
    List.reverse_perm (mixedColumn.select [0, 1, 2, 1])
  have hwidth : reversedColumn.width = mixedColumn.width := rfl
  refine build_eq_of_perm hwidth hperm ?_ 1 4 (Random.Generator.ofSeed 7)
  rintro feature hfeature ⟨-, hminus⟩
  obtain rfl : feature = 0 := Nat.lt_one_iff.mp hfeature
  have hcolumn : (mixedColumn.select [0, 1, 2, 1]).filterMap (·[0]?) =
      [ofNat 0, ofNat 0 / ofNat 0, ofNat 1, ofNat 0 / ofNat 0] := rfl
  have hbits := List.mem_map_of_mem (f := Float.toBits) (hcolumn ▸ hminus)
  exact absurd hbits (by decide +kernel)

end Tree

end LoginForest

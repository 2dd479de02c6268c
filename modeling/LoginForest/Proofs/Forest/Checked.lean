/-
  Growing a tree with every step checked. Here rows are given by their indices, an entry that the
  matrix does not have ends the growth, and so does a draw from an empty range or from one that is
  not finite. Growth never ends so (`build?_eq`): as long as the indices are those of rows and
  draws stay below their bound, the checked growth gives the same tree.
-/
import LoginForest.Proofs.Forest.Descent
import LoginForest.Proofs.Results

namespace LoginForest

open LoginForest.Random (Draws Generator)

/-! ## Steps that can fail -/

/-- An entry of a matrix; `none` where there is none. -/
def Matrix.entry? {α : Type} (x : Matrix α) (k j : Nat) : Option α := x.rows[k]?.bind (·[j]?)

namespace Random

section Draws

variable {γ : Type} [Draws γ]

/-- A number below a bound, which must not be zero. -/
def below? (bound : Nat) (g : γ) : Option (Nat × γ) :=
  if 0 < bound then some (Draws.below bound g) else none

/-- A number from an interval, which must have two ends with a finite distance. -/
def between? (low high : Float) (g : γ) : Option (Float × γ) :=
  if low < high ∧ (high - low).isFinite then some (Draws.between low high g) else none

end Draws

/-- A number drawn below a bound is below it, unless the bound is zero. -/
class Draws.Lawful (γ : Type) [Draws γ] : Prop where
  below_lt : ∀ {bound : Nat} (g : γ), 0 < bound → (Draws.below bound g).1 < bound

instance : Draws.Lawful Generator := ⟨fun g h => g.below_lt h .full⟩

end Random

namespace Range

/-- The range of no values. -/
def empty (feature : Nat) : Range :=
  let infinity := Float.ofBits 0x7ff0000000000000
  ⟨feature, infinity, -infinity⟩

/-- The range with one more value. -/
def widen (r : Range) (v : Float) : Range :=
  { r with
    low := if v < r.low then v else r.low
    high := if r.high < v then v else r.high }

/-- The range of a feature over the rows with these indices. -/
def ofIndices? (x : Matrix Float) (feature : Nat) (indices : List Nat) : Option Range :=
  indices.foldlM (fun r k => (x.entry? k feature).map r.widen) (empty feature)

end Range

/-- The features that can be split, over the rows with these indices. -/
def openRanges? (x : Matrix Float) (indices : List Nat) : Option (List Range) :=
  ((List.range x.width).mapM fun feature => Range.ofIndices? x feature indices).map
    (·.filter Range.isOpen)

/-- The indices whose rows go left, and those whose rows go right. -/
def parts? (x : Matrix Float) (feature : Nat) (threshold : Float) :
    List Nat → Option (List Nat × List Nat)
  | [] => some ([], [])
  | k :: ks => do
    let v ← x.entry? k feature
    let (left, right) ← parts? x feature threshold ks
    return if v < threshold then (k :: left, right) else (left, k :: right)

namespace Tree

section Growth

variable {γ : Type} [Draws γ]

/-- Split the rows with these indices as `grow` does, at most `room` levels below `depth`. -/
def grow? (x : Matrix Float) : (room depth : Nat) → List Nat → γ → Option (Tree × γ)
  | 0, depth, indices, g => some (.leaf ⟨depth, indices.length⟩, g)
  | room + 1, depth, indices, g =>
    if indices.length ≤ 1 then some (.leaf ⟨depth, indices.length⟩, g)
    else do
      let ranges ← openRanges? x indices
      if ranges.isEmpty then some (.leaf ⟨depth, indices.length⟩, g)
      else do
        let (i, g) ← Random.below? ranges.length g
        let range ← ranges[i]?
        let (threshold, g) ← Random.between? range.low range.high g
        let (left, right) ← parts? x range.feature threshold indices
        if left.isEmpty || right.isEmpty then some (.leaf ⟨depth, indices.length⟩, g)
        else do
          let (l, g) ← grow? x room (depth + 1) left g
          let (r, g) ← grow? x room (depth + 1) right g
          return (.split range.feature threshold l r, g)

/-- The tree of the rows with these indices, its root at `depth` and no split at `limit` or
below. -/
def build? (x : Matrix Float) (indices : List Nat) (depth limit : Nat) (g : γ) :
    Option (Tree × γ) :=
  grow? x (limit - depth) depth indices g

end Growth

end Tree

/-! ## No step fails -/

section Steps

variable {x : Matrix Float} {indices : List Nat}

/-- Rows have an entry for every feature. -/
theorem Matrix.exists_entry {k feature : Nat} (hk : k < x.height) (hfeature : feature < x.width) :
    ∃ v, x.entry? k feature = some v ∧ (x.row k)[feature]? = some v := by
  have hrow : x.rows[k]? = some (x.row k) := by
    have hk' : k < x.rows.length := hk
    simp [Matrix.row, hk']
  have hlength : feature < (x.row k).length := by rwa [Matrix.length_row hk]
  refine ⟨(x.row k)[feature], ?_, List.getElem?_eq_getElem hlength⟩
  rw [Matrix.entry?, hrow, Option.bind_some]
  exact List.getElem?_eq_getElem hlength

theorem Range.ofIndices?_eq {feature : Nat} (hindices : ∀ k ∈ indices, k < x.height)
    (hfeature : feature < x.width) :
    ofIndices? x feature indices = some (ofRows feature (indices.map x.row)) := by
  have hfold : ∀ r : Range, indices.foldlM (fun r k => (x.entry? k feature).map r.widen) r =
      some (((indices.map x.row).filterMap (·[feature]?)).foldl widen r) := by
    induction indices with
    | nil => intro r; rfl
    | cons k ks ih =>
      intro r
      obtain ⟨v, hentry, hvalue⟩ := Matrix.exists_entry (hindices k List.mem_cons_self) hfeature
      rw [List.foldlM_cons, hentry, List.map_cons,
        List.filterMap_cons_some (f := (·[feature]?)) hvalue]
      exact ih (fun j hj => hindices j (List.mem_cons_of_mem k hj)) (r.widen v)
  exact hfold (empty feature)

theorem openRanges?_eq (hindices : ∀ k ∈ indices, k < x.height) :
    openRanges? x indices = some (openRanges x.width (indices.map x.row)) := by
  unfold openRanges?
  rw [List.mapM_eq_some_map fun feature hfeature =>
    Range.ofIndices?_eq hindices (List.mem_range.mp hfeature)]
  rfl

theorem parts?_eq {feature : Nat} (threshold : Float) (hindices : ∀ k ∈ indices, k < x.height)
    (hfeature : feature < x.width) : parts? x feature threshold indices =
      some (indices.filter fun k => goesLeft feature threshold (x.row k),
        indices.filter fun k => !goesLeft feature threshold (x.row k)) := by
  induction indices with
  | nil => rfl
  | cons k ks ih =>
    obtain ⟨v, hentry, hvalue⟩ := Matrix.exists_entry (hindices k List.mem_cons_self) hfeature
    have hturn : goesLeft feature threshold (x.row k) = decide (v < threshold) := by
      rw [goesLeft, hvalue, Option.any_some]
    rw [parts?, hentry, ih fun j hj => hindices j (List.mem_cons_of_mem k hj)]
    by_cases hlt : v < threshold <;> simp [hturn, hlt]

end Steps

namespace Tree

variable {γ : Type} [Draws γ] [Random.Draws.Lawful γ]

/-- Checked growth ends with the tree that growth ends with. -/
theorem grow?_eq {x : Matrix Float} (room depth : Nat) {indices : List Nat} (g : γ)
    (hindices : ∀ k ∈ indices, k < x.height) :
    grow? x room depth indices g = some (grow x.width room depth (indices.map x.row) g) := by
  induction room generalizing depth indices g with
  | zero => rw [grow?, grow, List.length_map]
  | succ room ih =>
    rw [grow?, grow, List.length_map]
    split
    case isTrue => rfl
    case isFalse =>
      rw [openRanges?_eq hindices]
      cases hranges : openRanges x.width (indices.map x.row) with
      | nil => rfl
      | cons first others =>
        -- the draw of a feature: there is one, and its place is one of the list
        have hbelow : Random.below? (first :: others).length g =
            some (Draws.below (others.length + 1) g) := if_pos (Nat.succ_pos _)
        have hi : (Draws.below (others.length + 1) g).1 < (first :: others).length :=
          Random.Draws.Lawful.below_lt g (Nat.succ_pos _)
        simp only [Option.bind_eq_bind, Option.bind_some, List.isEmpty_cons, Bool.false_eq_true,
          if_false, hbelow]
        generalize Draws.below (others.length + 1) g = draw at hi
        obtain ⟨i, g₁⟩ := draw
        have hget : (first :: others)[i]? = some ((first :: others).getD i first) := by
          rw [List.getD_eq_getElem?_getD, List.getElem?_eq_getElem hi, Option.getD_some]
        have hmem : (first :: others).getD i first ∈ openRanges x.width (indices.map x.row) := by
          rw [hranges]
          exact List.mem_of_getElem? hget
        dsimp only
        rw [hget]
        generalize (first :: others).getD i first = range at hmem
        -- the draw of a threshold: its range is open
        obtain ⟨hfeature, hopen⟩ := openRanges_spec hmem
        have hbetween : Random.between? range.low range.high g₁ =
            some (Draws.between range.low range.high g₁) := if_pos hopen
        simp only [Option.bind_some, hbetween]
        generalize Draws.between range.low range.high g₁ = draw
        obtain ⟨threshold, g₂⟩ := draw
        dsimp only
        rw [parts?_eq threshold hindices hfeature, List.partition_eq_filter_filter,
          List.filter_map, List.filter_map, Option.bind_some]
        simp only [Function.comp_def, List.isEmpty_map]
        generalize hleft : indices.filter (fun k => goesLeft range.feature threshold (x.row k)) =
          left
        generalize hright : indices.filter (fun k => !goesLeft range.feature threshold (x.row k)) =
          right
        split
        case isTrue => rfl
        case isFalse =>
          rw [ih (depth + 1) g₂ (by grind), Option.bind_some, ih (depth + 1) _ (by grind)]
          rfl

/-- Checked growth of a tree never fails. -/
theorem build?_eq {x : Matrix Float} {indices : List Nat} (depth limit : Nat) (g : γ)
    (hindices : ∀ k ∈ indices, k < x.height) :
    build? x indices depth limit g = some (build x indices depth limit g) := by
  rw [build?, build, grow?_eq _ _ _ hindices, Matrix.select_eq hindices]

end Tree

end LoginForest

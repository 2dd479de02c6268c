/-
  Matrices as lists of rows of one width.
-/
namespace LoginForest

structure Matrix (α : Type) where
  width : Nat
  rows : List (List α)
  width_eq : ∀ r ∈ rows, r.length = width

namespace Matrix

variable {α : Type}

/-- The matrix with these rows, if they all have this width. -/
def ofRows? (width : Nat) (rows : List (List α)) : Option (Matrix α) :=
  if h : ∀ r ∈ rows, r.length = width then some ⟨width, rows, h⟩ else none

/-- Number of rows. -/
def height (x : Matrix α) : Nat := x.rows.length

def column (x : Matrix α) (j : Nat) : List α := x.rows.filterMap (·[j]?)

/-- The rows with these indices, in their order; an index without a row is passed over. -/
def select (x : Matrix α) (indices : List Nat) : List (List α) :=
  let rows := x.rows.toArray
  indices.filterMap (rows[·]?)

/-- Every entry combined with the parameter of its column. -/
def zipColumns (f : α → β → γ) (x : Matrix α) (params : List β) (h : params.length = x.width) :
    Matrix γ where
  width := x.width
  rows := x.rows.map fun r => List.zipWith f r params
  width_eq := by
    intro r hr
    obtain ⟨s, hs, rfl⟩ := List.mem_map.mp hr
    simp [x.width_eq s hs, h]

@[simp] theorem width_zipColumns (f : α → β → γ) (x : Matrix α) (params : List β)
    (h : params.length = x.width) : (x.zipColumns f params h).width = x.width := rfl

@[simp] theorem height_zipColumns (f : α → β → γ) (x : Matrix α) (params : List β)
    (h : params.length = x.width) : (x.zipColumns f params h).height = x.height := by
  simp [zipColumns, height]

end Matrix

end LoginForest

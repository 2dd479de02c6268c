/-
  Robust scaling: every column is centred at its median and divided by the distance of two of
  its quantiles.
-/
import LoginForest.Error
import LoginForest.Json.Decode
import LoginForest.Json.Encode
import LoginForest.Matrix
import LoginForest.Stats.Quantile

namespace LoginForest

/-- Centre and spread of a column. -/
structure ColumnStats (α : Type) where
  median : α
  spread : α
deriving BEq, Repr

/-- What scaling divides by: the spread, or one when it is zero or not finite. -/
def ColumnStats.scale [Scalar α] (c : ColumnStats α) : α :=
  if Scalar.same c.spread (Scalar.count 0) || !Scalar.isFinite c.spread then Scalar.count 1
  else c.spread

/-- The statistics of all columns in order. -/
structure Scaling (α : Type) where
  columns : List (ColumnStats α)
deriving BEq, Repr

namespace Scaling

variable {α : Type} [Scalar α]

def width (s : Scaling α) : Nat := s.columns.length

/-- The statistics of one column, for the quantiles `lower` and `upper`. -/
def columnStats (lower upper : α) (values : List α) : ColumnStats α :=
  let sorted := ascending values
  let quantileAt := fun q => (quantileSorted sorted q).getD (Scalar.count 0)
  ⟨quantileAt half, quantileAt upper - quantileAt lower⟩

/-- The statistics of a matrix, for quantiles given in percent. -/
def ofMatrix (lower upper : α) (x : Matrix α) : Scaling α :=
  let hundred : α := Scalar.count 100
  ⟨(List.range x.width).map fun j =>
    columnStats (lower / hundred) (upper / hundred) (x.column j)⟩

/-- The statistics of a matrix that has a row. -/
def fit (lower upper : α) (x : Matrix α) : Except Error (Scaling α) :=
  if x.height = 0 then .error (.empty .fitScaler) else .ok (ofMatrix lower upper x)

/-- Every column centred and divided. -/
def apply (s : Scaling α) (x : Matrix α) (h : s.columns.length = x.width) : Matrix α :=
  x.zipColumns (fun v c => (v - c.median) / c.scale) s.columns h

/-- Every column centred and divided, if there are statistics for each. -/
def transform (s : Scaling α) (x : Matrix α) : Except Error (Matrix α) :=
  if h : s.columns.length = x.width then .ok (s.apply x h)
  else .error (.columns s.width x.width)

/-- Undoes `transform`. -/
def invert (s : Scaling α) (x : Matrix α) : Except Error (Matrix α) :=
  if h : s.columns.length = x.width then
    .ok (x.zipColumns (fun v c => v * c.scale + c.median) s.columns h)
  else .error (.columns s.width x.width)

end Scaling

/-- Whether `lower` and `upper` can be a quantile range in percent. -/
def isQuantileRange [Scalar α] (lower upper : α) : Bool :=
  Scalar.atMost (Scalar.count 0) lower && Scalar.less lower upper &&
    !Scalar.less (Scalar.count 100) upper

/-- A quantile range in percent, and the statistics once they are fitted. -/
structure Scaler where
  lower : Float
  upper : Float
  scaling : Option (Scaling Float)

namespace Scaler

/-- The middle half of the values. -/
def standard : Scaler := ⟨Number.ofNat 25, Number.ofNat 75, none⟩

def withRange (lower upper : Float) (s : Scaler) : Except Error Scaler :=
  if isQuantileRange lower upper then .ok { s with lower, upper }
  else .error (.parameter (.quantileRange lower upper))

def fit (s : Scaler) (x : Matrix Float) : Except Error Scaler :=
  (Scaling.fit s.lower s.upper x).map fun scaling => { s with scaling := some scaling }

def isFitted (s : Scaler) : Bool := s.scaling.isSome

/-- The fitted statistics. -/
def fitted (s : Scaler) : Except Error (Scaling Float) :=
  match s.scaling with
  | some scaling => .ok scaling
  | none => .error (.unfitted .scaling)

def transform (s : Scaler) (x : Matrix Float) : Except Error (Matrix Float) := do
  (← s.fitted).transform x

/-- The fitted statistics as the last use of the scaler. -/
def release (s : Scaler) : Except Error (Scaling Float) :=
  match s.scaling with
  | some scaling => .ok scaling
  | none => .error (.unfitted .scaler)

/-- What can be asked of a scaler. -/
inductive Request where
  | range (lower upper : Float)
  | fit (x : Matrix Float)
  | fitTransform (x : Matrix Float)
  | transform (x : Matrix Float)
  | invert (x : Matrix Float)
  | fitted
  | isFitted
  | release

inductive Reply where
  | done
  | scaling (s : Scaling Float)
  | matrix (x : Matrix Float)
  | bool (b : Bool)

/-- Answer a request. The second part is the scaler afterwards, the same one after an error;
`none` once it is released. -/
def answer (s : Scaler) : Request → Except Error Reply × Option Scaler
  | .range lower upper =>
    match s.withRange lower upper with
    | .ok s' => (.ok .done, some s')
    | .error e => (.error e, some s)
  | .fit x =>
    match s.fit x with
    | .ok s' => (s'.fitted.map .scaling, some s')
    | .error e => (.error e, some s)
  | .fitTransform x =>
    match s.fit x with
    | .ok s' => ((s'.transform x).map .matrix, some s')
    | .error e => (.error e, some s)
  | .transform x => ((s.transform x).map .matrix, some s)
  | .invert x => ((s.fitted.bind (·.invert x)).map .matrix, some s)
  | .fitted => (s.fitted.map .scaling, some s)
  | .isFitted => (.ok (.bool s.isFitted), some s)
  | .release => (s.release.map .scaling, none)

end Scaler

open Json (Node Value)

def ColumnStats.toValue (c : ColumnStats Float) : Value :=
  .record [("median", .real c.median), ("interquartile_range", .real c.spread)]

def ColumnStats.ofNode? (n : Node) : Option (ColumnStats Float) := do
  let fields ← n.fields? false ["median", "interquartile_range"]
  return {
    median := ← fields.required? "median" Node.real?
    spread := ← fields.required? "interquartile_range" Node.real? }

def Scaling.toValue (s : Scaling Float) : Value :=
  .record [("columns", .list (s.columns.map ColumnStats.toValue))]

def Scaling.ofNode? (n : Node) : Option (Scaling Float) := do
  let fields ← n.fields? false ["columns"]
  return ⟨← fields.required? "columns" (Node.list? ColumnStats.ofNode?)⟩

namespace Scaler

def toValue (s : Scaler) : Value :=
  .record [
    ("quantile_range", .list [.real s.lower, .real s.upper]),
    ("fitted", .optional Scaling.toValue s.scaling)]

def ofNode? (n : Node) : Option Scaler := do
  let fields ← n.fields? false ["quantile_range", "fitted"]
  let (lower, upper) ← fields.required? "quantile_range" (Node.pair? Node.real?)
  return ⟨lower, upper, ← fields.optional? "fitted" Scaling.ofNode?⟩

def toJson (s : Scaler) : String := s.toValue.compact

def ofJson (s : String) : Except Error Scaler :=
  match (Json.parse? s).bind ofNode? with
  | some s => .ok s
  | none => .error .malformed

end Scaler

end LoginForest

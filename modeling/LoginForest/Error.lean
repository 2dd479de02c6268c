/-
  What can go wrong, by cause, and the message for each.
-/
import LoginForest.Number.Format
import LoginForest.Text.Quoted

namespace LoginForest

/-- What a data set was needed for when there was none. -/
inductive Need where
  | fitScaler
  | fitForest
  | score
  | rescore
deriving DecidableEq, Repr

/-- What has not been fitted. -/
inductive Unfitted where
  | scaling
  | scaler
  | forest
deriving DecidableEq, Repr

/-- Why a field of a row was replaced. -/
inductive Fault where
  | missingId
  | missingTime
  | badTime
  | notBoolean
  | notFinite
deriving DecidableEq, Repr

/-- A parameter out of its range. -/
inductive BadParameter where
  | trees
  | contamination (c : Float)
  | sampleCount
  | sampleFraction (f : Float)
  | jobs
  | quantileRange (lower upper : Float)

inductive Error where
  | empty (need : Need)
  | field (name value : String) (fault : Fault)
  | unfitted (what : Unfitted)
  | columns (expected actual : Nat)
  /-- a row without the feature that a split asks for; the program does not go on -/
  | outOfRange
  | parameter (p : BadParameter)
  | unreadableSettings (path : String)
  | invalidSettings (path : String)
  | unreadableTable
  | notObject (line : Nat)
  | malformed
  | notBundle (magic : String)
  | version (found : Nat)
  | checksum
  | file

def Need.message : Need → String
  | .fitScaler => "cannot fit scaler on a matrix with zero rows"
  | .fitForest => "cannot fit isolation forest on a matrix with zero rows"
  | .score => "no login attempts to score; add data to the source and try again"
  | .rescore => "no login attempts to score"

def Unfitted.message : Unfitted → String
  | .scaling => "RobustScaler.transform called before fit"
  | .scaler => "RobustScaler has not been fit"
  | .forest => "IsolationForest has not been fit"

def Fault.message : Fault → String
  | .missingId => "missing identifier"
  | .missingTime => "missing timestamp, using Unix epoch"
  | .badTime => "unparseable timestamp, using Unix epoch"
  | .notBoolean => "not a boolean, using false"
  | .notFinite => "not a finite number, treating as missing"

/-- Name, value and what was expected. -/
def BadParameter.parts : BadParameter → String × String × String
  | .trees => ("n_estimators", "0", "must be at least 1")
  | .contamination c => ("contamination", Number.plain c, "must be in (0, 0.5]")
  | .sampleCount => ("max_samples", "0", "must be at least 1")
  | .sampleFraction f => ("max_samples", Number.plain f, "fraction must be in (0, 1]")
  | .jobs => ("n_jobs", "0", "must be at least 1")
  | .quantileRange lower upper =>
    ("quantile_range", "(" ++ Number.plain lower ++ ", " ++ Number.plain upper ++ ")",
      "expected 0 <= lower < upper <= 100")

/-- The newest bundle version that can be read. -/
def bundleVersion : Nat := 1

def decimalText (n : Nat) : String := String.ofList (Number.digitsOf n)

def Error.message : Error → String
  | .empty need => "Empty dataset: " ++ need.message
  | .field name value fault =>
    "Invalid record field \x60" ++ name ++ "\x60 = " ++ Text.quoted value ++ ": " ++ fault.message
  | .unfitted what => "Not fitted: " ++ what.message
  | .columns expected actual =>
    "Dimension mismatch: expected " ++ decimalText expected ++ " columns, got " ++
      decimalText actual ++ " columns"
  | .outOfRange => "Internal error: index out of bounds"
  | .parameter p =>
    let (name, value, reason) := p.parts
    "Invalid parameter: " ++ name ++ " = " ++ value ++ ", " ++ reason
  | .unreadableSettings path => "Configuration error: cannot read " ++ path
  | .invalidSettings path => "Configuration error: invalid config " ++ path
  | .unreadableTable => "Data error: unreadable table"
  | .notObject line => "Data error: line " ++ decimalText line ++ " is not a JSON object"
  | .malformed => "Serialization error: malformed document"
  | .notBundle magic =>
    "Serialization error: not a model bundle (magic " ++ Text.quoted magic ++ ")"
  | .version found =>
    "Serialization error: unsupported bundle version " ++ decimalText found ++ " (max " ++
      decimalText bundleVersion ++ ")"
  | .checksum => "Serialization error: Checksum verification failed - file may be corrupted"
  | .file => "IO error: cannot access file"

end LoginForest

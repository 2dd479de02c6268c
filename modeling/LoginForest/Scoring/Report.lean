/-
  Reports: delimited tables of scored attempts.
-/
import LoginForest.Attempt.Load
import LoginForest.Delimited.Writer
import LoginForest.Number.Format
import LoginForest.Scoring.Scored
import LoginForest.Time.Format

namespace LoginForest.Report

def columns : List String :=
  ["id", "user_id", "created_at", "ip_address", "country", "city", "asn", "latitude",
    "longitude", "success", "anomaly_score", "is_anomaly"]

def truthText (b : Bool) : String := if b then "true" else "false"

/-- The fields of a row; what is unknown is empty. -/
def fields (s : Scored) : List String :=
  let a := s.attempt
  [a.id, a.user.getD "", a.time.text, a.address.getD "", a.country.getD "", a.city.getD "",
    a.network.getD "", (a.latitude.map Number.plain).getD "",
    (a.longitude.map Number.plain).getD "", truthText a.success, Number.plain s.score,
    truthText s.flagged]

/-- A header and a row for each attempt, in their order. -/
def bytes (delimiter : UInt8) (rows : List Scored) : Bytes :=
  Delimited.write (Delimited.byteMarks delimiter)
    ((columns :: rows.map fields).map (·.map Bytes.ofText))

/-- The comma separated report. -/
def commaSeparated (rows : List Scored) : Bytes := bytes 44 rows

end LoginForest.Report

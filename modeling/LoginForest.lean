import LoginForest.Text.Blank
import LoginForest.Text.Quoted
import LoginForest.Text.Bytes
import LoginForest.Number.Format
import LoginForest.Number.Reading
import LoginForest.Json.Decode
import LoginForest.Json.Encode
import LoginForest.Time.Format
import LoginForest.Time.Reading
import LoginForest.Address
import LoginForest.Error
import LoginForest.Delimited.Writer
import LoginForest.Attempt.Json
import LoginForest.Attempt.Load
import LoginForest.Trust
import LoginForest.Stats.Frequency
import LoginForest.Scaler
import LoginForest.Features
import LoginForest.Forest.Detector
import LoginForest.Bundle.Json
import LoginForest.Scoring.Run
import LoginForest.Scoring.Report
import LoginForest.Command.Run
import LoginForest.Main
import LoginForest.Proofs.Scoring.Influence
import LoginForest.Proofs.Scoring.Reopen
import LoginForest.Proofs.Bundle.Reread
import LoginForest.Proofs.Forest.WellFormed
import LoginForest.Proofs.Scoring.Reordering
import LoginForest.Proofs.Scoring.Reload
import LoginForest.Proofs.Scoring.Rescore
import LoginForest.Proofs.Bundle.Accepted
import LoginForest.Proofs.Bundle.Corruption
import LoginForest.Proofs.Command.Quiet
import LoginForest.Proofs.Command.Stored
import LoginForest.Proofs.Command.Reports
import LoginForest.Proofs.Attempt.Lenient
import LoginForest.Proofs.Forest.Contamination
import LoginForest.Proofs.Scoring.Provenance
import LoginForest.Proofs.Session.Scaler
import LoginForest.Proofs.Command.Effects
import LoginForest.Proofs.Attempt.Formats
import LoginForest.Proofs.Forest.Shape
import LoginForest.Proofs.Forest.ExactScores
import LoginForest.Proofs.Encoding
import LoginForest.Proofs.ExactScaling
import LoginForest.Proofs.Scoring.Trusted
import LoginForest.Proofs.Scoring.Flags
import LoginForest.Proofs.Attempt.Strict
import LoginForest.Proofs.Attempt.Times
import LoginForest.Proofs.Time.Spelling
import LoginForest.Proofs.Attempt.Canonical
import LoginForest.Proofs.Attempt.Faults
import LoginForest.Proofs.Forest.Constant
import LoginForest.Proofs.Forest.Permuted
import LoginForest.Proofs.Stats.Interpolated
import LoginForest.Proofs.Address.Host

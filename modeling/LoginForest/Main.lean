/-
  The program: the commands on real files, with the time of day and random words from outside.
-/
import LoginForest.Command.Run
import Std.Time.DateTime.Timestamp

namespace LoginForest

instance : Command.Host IO where
  find path := do
    try
      return .file (← IO.FS.readBinFile path).toList
    catch
      | .noFileOrDirectory .. => return .nothing
      | .permissionDenied .. => return .nothing
      | _ => return .other
  store path content := do
    try
      IO.FS.writeBinFile path content.toByteArray
      return true
    catch _ => return false
  print s := do
    let out ← IO.getStdout
    out.putStr s
    out.flush

/-- The time now, and a random word. -/
def Occasion.here : IO Occasion := do
  let now ← Std.Time.Timestamp.now
  let time := Time.Timestamp.ofUnix? now.toSecondsSinceUnixEpoch.val now.val.nano.val.toNat
  let bytes ← IO.getRandomBytes 8
  return {
    now := time.getD .epoch
    chance := bytes.toList.foldl (fun w b => w * 256 + b.toUInt64) 0 }

/-- What is said when the arguments spell no command. -/
def usage : String :=
  "usage: login-anomaly score --data FILE [--trusted FILE] [--config FILE] [--trees N]\n" ++
  "         [--contamination SHARE] [--seed N] [--jobs N] [--top N] [--output FILE]\n" ++
  "         [--timeline FILE] [--model-out FILE]\n" ++
  "       login-anomaly rescore --model FILE --data FILE [--output FILE] [--timeline FILE]\n" ++
  "         [--top N]"

end LoginForest

open LoginForest in
def main (args : List String) : IO UInt32 := do
  match Command.ofArguments? args with
  | none =>
    IO.eprintln usage
    return 2
  | some command =>
    match ← (command.run (← Occasion.here)).run with
    | .ok _ => return 0
    | .error e =>
      IO.eprintln ("Error: " ++ e.message)
      return 1

import LiquidityWatch.CommandLine

/-! # The program

Reads the settings, the snapshot file that is named and the arguments, carries the request out, and
prints. The program is built without a transport: every request fails to connect, so a report shows
what a snapshot file gives by itself. Nothing that it prints depends on the time of day. -/

open LiquidityWatch

/-- The settings that are set outside. -/
def readEnvironment : IO Environment := do
  let names := [Settings.timeoutName, Settings.aggregateName, Settings.networkName]
  let found ← names.mapM fun name => do
    return (← IO.getEnv name).map fun value => (name, value)
  return found.filterMap id

/-- The content of the file at a path, if it can be read. -/
def readFile? (path : Text) : IO (Option (List UInt8)) := do
  try
    return some (← IO.FS.readBinFile path.toString).toList
  catch _ => return none

/-- The path of the snapshot file that a request needs. -/
def snapshotPath? : CommandLine.Request → Option Text
  | .command (.report path) => some path
  | _ => none

/-- A network without a connection. -/
def offline : Network := .constant fun _ => .failed

def main (arguments : List String) : IO UInt32 := do
  let (settings, warnings) := Settings.ofEnvironment (← readEnvironment)
  warnings.forM fun warning => IO.println warning
  let request := CommandLine.read (arguments.map Text.ofString)
  let content ← match snapshotPath? request with
    | some path => readFile? path
    | none => pure none
  let world := World.start offline (fun _ => content) settings (.real .zero)
  let (outcome, after) := (request.run.run world).run
  IO.print after.output
  match outcome with
  | .ok code => return code.toUInt32
  | .error f =>
    IO.eprintln f.message
    return 1

import DeclBundle.CommandLine.Snapshot

/-!
# The program

The command line over a snapshot: what a session depends on is read from the standard input as JSON, what
it writes goes to the disk, and what it says goes to the two outputs.
-/

open DeclBundle DeclBundle.CommandLine

def main (arguments : List String) : IO UInt32 := do
  let stdin ← IO.getStdin
  let text ← stdin.readToEnd
  match Json.read text with
  | .error _ =>
    IO.eprintln "the snapshot is not JSON"
    return 3
  | .ok v =>
    let (outcome, changes) := Snapshot.run v arguments
    for (path, content) in changes do
      IO.FS.createDirAll (Path.directory path)
      IO.FS.writeBinFile path content
    IO.print outcome.output
    IO.eprint outcome.errors
    match outcome.status with
    | .ok n => return n.toUInt32
    | .error e =>
      IO.eprintln e.message
      return 4

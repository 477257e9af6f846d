/-
The program.

The directory to work on and its syntax trees are read from standard input; files that
the command writes are written to the current directory.
-/
import HookLint.Command.Run
import HookLint.Command.Snapshot
import HookLint.Format.JsonReader

open HookLint HookLint.Command

/-- Writes the files that a command changed. -/
def writeChanges (before after : Files.Disk) : IO Unit :=
  for (place, content) in before.changes after do
    match content with
    | .text s => IO.FS.writeFile (Text.join "/" place) s
    | .binary => pure ()

def main (words : List String) : IO UInt32 := do
  let input ← (← IO.getStdin).readToEnd
  match (Json.parse? input).bind Snapshot.ofJson? with
  | none =>
    IO.eprintln "Error: standard input holds no directory"
    return 1
  | some snapshot =>
    let outcome := run snapshot.session words
    IO.print outcome.out
    IO.eprint outcome.err
    writeChanges snapshot.disk outcome.disk
    return UInt32.ofNat outcome.code

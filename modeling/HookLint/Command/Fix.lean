/-
The command that fixes a project.
-/
import HookLint.Command.Arguments
import HookLint.Command.Session

namespace HookLint.Command

open HookLint.Files HookLint.Fix

/-- An ending for a count: none for one. -/
def plural (n : Nat) : String := if n = 1 then "" else "s"

/-- Fixes a file.  It is written when it changes, unless this is a trial. -/
def fixFile (s : Session) (engine : Engine) (trial : Bool) (path : String) :
    Except Fix.Failure (FileFix × Disk) := do
  let inaccessible (o : Obstacle) : Fix.Failure := .inaccessible path o.reason
  let source ← (s.disk.read path).mapError inaccessible
  let fixed ← fixSource engine (s.parse path) path source
  if fixed.isChanged && !trial then
    return (fixed, ← (s.disk.write path fixed.fixed).mapError inaccessible)
  else return (fixed, s.disk)

/-- What has been done so far. -/
structure Tally where
  disk : Disk
  out : String := ""
  err : String := ""
  changed : Nat := 0
  applied : Nat := 0
  remaining : Nat := 0
  failed : Nat := 0

namespace Tally

/-- What is said of a file that changes. -/
def announcement (trial : Bool) (shown : String) (f : FileFix) : String :=
  let applied := f.applied
  let ending := plural applied
  if trial then f.patch else s!"✓ Fixed {shown} ({applied} change{ending})\n"

/-- Takes account of one more file. -/
def add (s : Session) (engine : Engine) (trial : Bool) (root : String) (t : Tally)
    (path : String) : Tally :=
  let shown := Path.display root path
  match fixFile { s with disk := t.disk } engine trial path with
  | .error failure =>
    let reason := failure.message
    { t with failed := t.failed + 1, err := t.err ++ s!"✗ {shown}: {reason}\n" }
  | .ok (f, disk) =>
    let t := { t with disk, remaining := t.remaining + f.remaining.length }
    if f.isChanged then
      { t with
        changed := t.changed + 1, applied := t.applied + f.applied
        out := t.out ++ announcement trial shown f }
    else t

/-- The lines at the end. -/
def summary (t : Tally) (trial : Bool) : String :=
  let verb := if trial then "Would fix" else "Fixed"
  let changed := t.changed
  let files := plural changed
  let applied := t.applied
  let arrays := plural applied
  let remaining := t.remaining
  let problems := plural remaining
  let need := if remaining = 1 then "needs" else "need"
  (if changed = 0 then "✓ Nothing to fix\n"
   else s!"\n{verb} {changed} file{files} ({applied} dependency array{arrays} updated)\n") ++
  (if remaining = 0 then ""
   else s!"{remaining} problem{problems} {need} manual attention. Run hookdeps check to see them.\n")

/-- The failure of some files. -/
def failure? (t : Tally) : Option Failure :=
  let failed := t.failed
  let ending := plural failed
  if failed = 0 then none else some { message := s!"{failed} file{ending} could not be fixed" }

end Tally

/-- Fixes the project at a path. -/
def fix (s : Session) (i : Invocation) (trial : Bool) : Except Failure Outcome := do
  let w ← Workspace.load s i.path i.config
  let engine ← w.engine i.workers
  let t := w.files.foldl (Tally.add s engine trial w.root) { disk := s.disk : Tally }
  return {
    code := if t.failed = 0 then 0 else 1
    out := t.out ++ t.summary trial
    err := t.err ++ (t.failure?.map Failure.render).getD ""
    disk := t.disk }

end HookLint.Command

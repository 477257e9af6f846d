/-
Running a command line.
-/
import HookLint.Command.Arguments
import HookLint.Command.Check
import HookLint.Command.Fix
import HookLint.Command.Init

namespace HookLint.Command

/-- The name and version of the program. -/
def version : String := "hookdeps " ++ Report.Sarif.toolVersion ++ "\n"

/-- How the program is used. -/
def usage : String :=
  "Usage: hookdeps [OPTIONS] [PATH] [check|fix|init]\n"

/-- Does what a command line asks for. -/
def perform (s : Session) (i : Invocation) : Except Failure Outcome :=
  match i.action with
  | .check format output failOn => check s i format output failOn
  | .fix dryRun => fix s i dryRun
  | .init force => init s i.path force

/-- Runs a command line. -/
def run (s : Session) (words : List String) : Outcome :=
  match Invocation.parse words with
  | .error .help => { out := usage, disk := s.disk }
  | .error .version => { out := version, disk := s.disk }
  | .error .misuse => { code := 2, err := usage, disk := s.disk }
  | .ok i =>
    match perform s i with
    | .ok outcome => outcome
    | .error failure => failed s.disk failure

end HookLint.Command

/-
The command that checks a project and reports.
-/
import HookLint.Command.Arguments
import HookLint.Command.Session

namespace HookLint.Command

open HookLint.Files

/-- The format of the report: the one asked for, the configured one, or text. -/
def formatOf (asked : Option String) (defaults : Config.Defaults) :
    Except Failure Report.Format :=
  let name := (asked.orElse fun _ => defaults.format).getD "text"
  match Report.Format.parse? name with
  | some format => .ok format
  | none => .error { message := Report.Format.unknownMessage name }

/-- The severity from which on findings make the command fail. -/
def thresholdOf (asked : Option String) (defaults : Config.Defaults) :
    Except Failure (Option Severity) :=
  match asked.orElse fun _ => defaults.failOn with
  | none => .ok none
  | some name =>
    match Severity.parse? name with
    | some severity => .ok (some severity)
    | none => .error { message := "Invalid fail_on: " ++ Severity.unknownMessage name }

/-- A text for standard output: without the white space at its end, and with a line feed. -/
def printed (text : String) : String := Text.trimEnd text ++ "\n"

/-- Writes a report to a file. -/
def writeReport (s : Session) (path text : String) : Except Failure Disk :=
  match s.disk.write path text with
  | .ok disk => .ok disk
  | .error obstacle =>
    .error { message := s!"Failed to write report to {path}", causes := [obstacle.reason] }

/-- What is said, and with which code the command ends, when findings reach the
threshold. -/
def verdict (report : CheckReport) (threshold : Option Severity) : Nat × String :=
  match threshold with
  | some severity =>
    let name := severity.name
    if report.exceeds threshold then (1, s!"Failing due to --fail-on={name} threshold\n")
    else (0, "")
  | none => (0, "")

/-- Checks the project at a path. -/
def check (s : Session) (i : Invocation) (format output failOn : Option String) :
    Except Failure Outcome := do
  let w ← Workspace.load s i.path i.config
  let format ← formatOf format w.config.defaults
  let threshold ← thresholdOf failOn w.config.defaults
  let engine ← w.engine i.workers
  let read (path : String) : Except String String := (s.disk.read path).mapError Obstacle.reason
  let report := engine.checkFiles read (fun path text => s.parse path 0 text) w.root w.files
  let text := Report.render format (output.isNone && s.color) s.time report
  let (code, remark) := verdict report threshold
  match output with
  | none => return { code, out := printed text, err := remark, disk := s.disk }
  | some path =>
    let disk ← writeReport s path text
    let elapsed := s.elapsed
    return { code, err := s!"✓ Report written to: {path} ({elapsed}s)\n" ++ remark, disk }

end HookLint.Command

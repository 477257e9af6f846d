/-
Statistics on the rules that were run.
-/
import HookLint.Rule.Basic

namespace HookLint

/-- A rule that was run, and how long it took. -/
structure RuleRun where
  rule : String
  outcome : Outcome
  milliseconds : Nat

/-- Statistics on the rules that were run. -/
structure RuleSummary where
  run : Nat := 0
  succeeded : Nat := 0
  failed : Nat := 0
  diagnostics : Nat := 0
  /-- the findings of each severity that was found -/
  bySeverity : List (Severity × Nat) := []
  milliseconds : Nat := 0
  deriving DecidableEq, Repr

namespace RuleSummary

/-- Counts one more of a severity. -/
def countSeverity (counts : List (Severity × Nat)) (s : Severity) : List (Severity × Nat) :=
  match counts with
  | [] => [(s, 1)]
  | (t, n) :: rest => if t = s then (t, n + 1) :: rest else (t, n) :: countSeverity rest s

/-- Takes account of one more run. -/
def add (summary : RuleSummary) (r : RuleRun) : RuleSummary :=
  let summary := { summary with
    run := summary.run + 1, milliseconds := summary.milliseconds + r.milliseconds }
  match r.outcome with
  | .found ds => { summary with
      succeeded := summary.succeeded + 1
      diagnostics := summary.diagnostics + ds.length
      bySeverity := (ds.map (·.severity)).foldl countSeverity summary.bySeverity }
  | _ => { summary with failed := summary.failed + 1 }

/-- The statistics of a list of runs. -/
def ofRuns (runs : List RuleRun) : RuleSummary := runs.foldl add {}

end RuleSummary

end HookLint

/-
Findings by file, and their counts.
-/
import HookLint.Diagnostic.Basic

namespace HookLint

/-- The findings of one file, or why it could not be checked. -/
structure FileReport where
  path : String
  diagnostics : List Diagnostic
  error : Option String
  deriving DecidableEq, Repr

/-- Findings counted by severity. -/
structure Counts where
  critical : Nat := 0
  high : Nat := 0
  medium : Nat := 0
  low : Nat := 0
  info : Nat := 0
  total : Nat := 0
  /-- those with a suggestion -/
  fixable : Nat := 0
  deriving DecidableEq, Repr

namespace Counts

/-- The counter of a severity. -/
def ofSeverity (c : Counts) : Severity → Nat
  | .critical => c.critical
  | .high => c.high
  | .medium => c.medium
  | .low => c.low
  | .info => c.info

/-- Counts one more diagnostic. -/
def add (c : Counts) (d : Diagnostic) : Counts :=
  let c := match d.severity with
    | .critical => { c with critical := c.critical + 1 }
    | .high => { c with high := c.high + 1 }
    | .medium => { c with medium := c.medium + 1 }
    | .low => { c with low := c.low + 1 }
    | .info => { c with info := c.info + 1 }
  { c with
    total := c.total + 1
    fixable := c.fixable + if d.suggestion.isSome then 1 else 0 }

def ofDiagnostics (ds : List Diagnostic) : Counts := ds.foldl add {}

end Counts

/-- The outcome of a run over a set of files. -/
structure CheckReport where
  root : String
  filesAnalyzed : Nat
  files : List FileReport
  summary : Counts
  deriving DecidableEq, Repr

namespace CheckReport

/-- The report of a list of checked files. -/
def ofFiles (root : String) (files : List FileReport) : CheckReport :=
  { root, filesAnalyzed := files.length, files
    summary := Counts.ofDiagnostics (files.flatMap (·.diagnostics)) }

/-- The files paired with their diagnostics, in report order. -/
def findings (r : CheckReport) : List (FileReport × Diagnostic) :=
  r.files.flatMap fun f => f.diagnostics.map fun d => (f, d)

/-- The worst severity found. -/
def worst? (r : CheckReport) : Option Severity :=
  r.findings.foldl (fun worst (_, d) => some ((worst.map (·.max d.severity)).getD d.severity)) none

/-- A finding is at or above the threshold. -/
def exceeds (r : CheckReport) (threshold : Option Severity) : Bool :=
  match threshold, r.worst? with
  | some t, some worst => t.rank ≤ worst.rank
  | _, _ => false

end CheckReport

end HookLint

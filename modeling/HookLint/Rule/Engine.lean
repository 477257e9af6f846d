/-
Running rules on sources and on sets of files.

Every rule is run, whatever becomes of the others.  The findings of a source are in
order of position, those at one position in order of the rules; its error is that of
the first rule that did not end well.  The reports on a set of files are in order of
path.
-/
import HookLint.Rule.Basic

namespace HookLint

/-- How many files are checked at a time. -/
inductive Workers where
  /-- as many as the machine has processors, but at most sixteen -/
  | automatic
  | exactly (n : Nat)
  deriving DecidableEq, Repr

/-- As many workers as asked for; none asked for means automatic. -/
def Workers.ofNat (n : Nat) : Workers := if n = 0 then automatic else exactly n

/-- The rules of a run, in order. -/
structure Engine where
  rules : List Rule
  workers : Workers := .automatic

namespace Engine

/-- Adds rules after those there are. -/
def register (e : Engine) (rules : List Rule) : Engine := { e with rules := e.rules ++ rules }

/-- One finding does not come after another. -/
def precedes (a b : Diagnostic) : Bool :=
  if a.span.start = b.span.start then a.span.stop ≤ b.span.stop else a.span.start ≤ b.span.start

/-- The report of a list of outcomes on one source. -/
def report (path : String) (outcomes : List Outcome) : FileReport :=
  { path
    diagnostics := (outcomes.flatMap (·.diagnostics)).mergeSort precedes
    error := (outcomes.filterMap (·.error?)).head? }

/-- Runs every rule on a source. -/
def checkSource (e : Engine) (u : SourceUnit) : FileReport :=
  let graph := Scope.Graph.build u.source u.tree
  report u.path (e.rules.map fun rule => rule.check u graph)

/-- What is reported of a file that cannot be checked. -/
def unchecked (path error : String) : FileReport := { path, diagnostics := [], error := some error }

/-- Checks a file, given what reading it gives and how it is parsed. -/
def checkFile (e : Engine) (read : String → Except String String)
    (parse : String → String → Syntax.Tree) (path : String) : FileReport :=
  match Syntax.Language.ofPath? path with
  | none =>
    let extension := (Files.Path.extension? path).getD ""
    unchecked path s!"Unsupported file extension: '{extension}'"
  | some _ =>
    match read path with
    | .error reason => unchecked path s!"Failed to read {path}: {reason}"
    | .ok source => e.checkSource { path, source, tree := parse path source }

/-- What is told after each file: how many are done, and of how many. -/
def progress (files : List String) : List (Nat × Nat) :=
  (List.range files.length).map fun i => (i + 1, files.length)

/-- Checks a set of files. -/
def checkFiles (e : Engine) (read : String → Except String String)
    (parse : String → String → Syntax.Tree) (root : String) (files : List String) : CheckReport :=
  CheckReport.ofFiles root
    ((files.map (e.checkFile read parse)).mergeSort fun a b => Files.Path.le a.path b.path)

end Engine

end HookLint

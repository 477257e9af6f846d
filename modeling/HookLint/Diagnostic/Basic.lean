/-
Findings.

A diagnostic says what is wrong with one hook call and where; it may carry a
suggestion, which is an exact replacement of a piece of the source.
-/
import HookLint.Diagnostic.Severity
import HookLint.Syntax.Site
import HookLint.Text.Position

namespace HookLint

/-- A byte range with the lines and columns of its ends, counted from one. -/
structure Span where
  start : Nat
  stop : Nat
  startLine : Nat
  startColumn : Nat
  stopLine : Nat
  stopColumn : Nat
  deriving DecidableEq, Repr, Inhabited

namespace Span

/-- The span of a site. -/
def ofSite (source : String) (s : Syntax.Site) : Span :=
  let first := Text.positionAt source s.start
  let last := Text.positionAt source s.stop
  { start := s.start, stop := s.stop
    startLine := first.row + 1, startColumn := first.column + 1
    stopLine := last.row + 1, stopColumn := last.column + 1 }

/-- Number of bytes; a reversed range has none. -/
def length (s : Span) : Nat := s.stop - s.start

def isEmpty (s : Span) : Bool := s.length = 0

/-- Each range starts before the other stops. -/
def overlaps (s t : Span) : Bool := s.start < t.stop && t.start < s.stop

end Span

/-- Puts a text in place of a span. -/
structure Replacement where
  span : Span
  text : String
  deriving DecidableEq, Repr

/-- An edit proposed with a diagnostic. -/
structure Suggestion where
  description : String
  replacement : Replacement
  deriving DecidableEq, Repr

/-- What a diagnostic is about. -/
inductive DiagnosticKind where
  /-- the declared dependencies are not those the callback has -/
  | dependencyMismatch
  /-- a declared value is built afresh on every render -/
  | unstableConstruction (name construction : String)
  /-- a render-scope variable is assigned inside the callback -/
  | staleAssignment (name : String)
  /-- an effect callback is asynchronous -/
  | asyncEffect
  | nonArrayDependencies
  | spreadInDependencies
  /-- a literal is listed as a dependency -/
  | literalDependency (literal : String)
  /-- an entry is neither a name nor a member path -/
  | complexDependency
  deriving DecidableEq, Repr

/-- One finding. -/
structure Diagnostic where
  rule : String
  kind : DiagnosticKind
  /-- the hook as written at the call -/
  hookName : String
  missing : List String
  unnecessary : List String
  duplicate : List String
  message : String
  severity : Severity
  span : Span
  suggestion : Option Suggestion
  deriving DecidableEq, Repr

end HookLint

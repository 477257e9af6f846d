/-
Diagnostics and reports as JSON.

Members stand in a fixed order; empty lists of paths, an absent suggestion and an
absent error are left out.
-/
import HookLint.Diagnostic.Report
import HookLint.Format.Json

namespace HookLint

def Span.toJson (s : Span) : Json :=
  .object
    [("start", .nat s.start), ("end", .nat s.stop),
     ("start_line", .nat s.startLine), ("start_column", .nat s.startColumn),
     ("end_line", .nat s.stopLine), ("end_column", .nat s.stopColumn)]

def Replacement.toJson (r : Replacement) : Json :=
  .object [("span", r.span.toJson), ("text", .string r.text)]

def Suggestion.toJson (s : Suggestion) : Json :=
  .object [("description", .string s.description), ("replacement", s.replacement.toJson)]

/-- The tag of a kind. -/
def DiagnosticKind.tag : DiagnosticKind → String
  | dependencyMismatch => "dependency-mismatch"
  | unstableConstruction _ _ => "unstable-construction"
  | staleAssignment _ => "stale-assignment"
  | asyncEffect => "async-effect"
  | nonArrayDependencies => "non-array-dependencies"
  | spreadInDependencies => "spread-in-dependencies"
  | literalDependency _ => "literal-dependency"
  | complexDependency => "complex-dependency"

/-- What a kind carries beside its tag. -/
def DiagnosticKind.details : DiagnosticKind → List (String × Json)
  | unstableConstruction name construction =>
    [("name", .string name), ("construction", .string construction)]
  | staleAssignment name => [("name", .string name)]
  | literalDependency literal => [("literal", .string literal)]
  | _ => []

def DiagnosticKind.toJson (k : DiagnosticKind) : Json :=
  .object (("type", .string k.tag) :: k.details)

/-- A list of paths, left out when empty. -/
def pathsMember (key : String) (paths : List String) : List (String × Json) :=
  if paths.isEmpty then [] else [(key, .strings paths)]

def Diagnostic.toJson (d : Diagnostic) : Json :=
  .object <|
    [("rule", .string d.rule), ("kind", d.kind.toJson), ("hook_name", .string d.hookName)] ++
    pathsMember "missing" d.missing ++
    pathsMember "unnecessary" d.unnecessary ++
    pathsMember "duplicate" d.duplicate ++
    [("message", .string d.message), ("severity", .string d.severity.name),
     ("span", d.span.toJson)] ++
    Json.optional "suggestion" (d.suggestion.map Suggestion.toJson)

def FileReport.toJson (f : FileReport) : Json :=
  .object <|
    [("path", .string f.path), ("diagnostics", .array (f.diagnostics.map Diagnostic.toJson))] ++
    Json.optional "error" (f.error.map .string)

def Counts.toJson (c : Counts) : Json :=
  .object
    [("critical", .nat c.critical), ("high", .nat c.high), ("medium", .nat c.medium),
     ("low", .nat c.low), ("info", .nat c.info), ("total", .nat c.total),
     ("fixable", .nat c.fixable)]

def CheckReport.toJson (r : CheckReport) : Json :=
  .object
    [("root", .string r.root), ("files_analyzed", .nat r.filesAnalyzed),
     ("files", .array (r.files.map FileReport.toJson)), ("summary", r.summary.toJson)]

end HookLint

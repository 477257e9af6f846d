/-
Reading diagnostics and reports back from JSON.
-/
import HookLint.Diagnostic.Encode
import HookLint.Format.Record

namespace HookLint

open Json

def Span.ofJson? (j : Json) : Option Span := do
  match ← fields? true
    [["start"], ["end"], ["start_line"], ["start_column"], ["end_line"], ["end_column"]] j with
  | [start, stop, startLine, startColumn, stopLine, stopColumn] =>
    return {
      start := ← required nat64? start
      stop := ← required nat64? stop
      startLine := ← required nat32? startLine
      startColumn := ← required nat32? startColumn
      stopLine := ← required nat32? stopLine
      stopColumn := ← required nat32? stopColumn }
  | _ => none

def Replacement.ofJson? (j : Json) : Option Replacement := do
  match ← fields? true [["span"], ["text"]] j with
  | [span, text] =>
    return { span := ← required Span.ofJson? span, text := ← required string? text }
  | _ => none

def Suggestion.ofJson? (j : Json) : Option Suggestion := do
  match ← fields? true [["description"], ["replacement"]] j with
  | [description, replacement] =>
    return {
      description := ← required string? description
      replacement := ← required Replacement.ofJson? replacement }
  | _ => none

/-- A severity is its name, alone or as the only key of an object that holds nothing. -/
def Severity.ofJson? : Json → Option Severity
  | .string s => ofName? s
  | .object [(s, .null)] => ofName? s
  | _ => none

/-- Reads what a kind with a given tag carries. -/
def DiagnosticKind.ofDetails? (tag : String) (details : Json) : Option DiagnosticKind :=
  match tag with
  | "dependency-mismatch" => (fields? true [] details).map fun _ => dependencyMismatch
  | "unstable-construction" => do
    match ← fields? true [["name"], ["construction"]] details with
    | [name, construction] =>
      return unstableConstruction (← required string? name) (← required string? construction)
    | _ => none
  | "stale-assignment" => do
    match ← fields? true [["name"]] details with
    | [name] => return staleAssignment (← required string? name)
    | _ => none
  | "async-effect" => (fields? true [] details).map fun _ => asyncEffect
  | "non-array-dependencies" => (fields? true [] details).map fun _ => nonArrayDependencies
  | "spread-in-dependencies" => (fields? true [] details).map fun _ => spreadInDependencies
  | "literal-dependency" => do
    match ← fields? true [["literal"]] details with
    | [literal] => return literalDependency (← required string? literal)
    | _ => none
  | "complex-dependency" => (fields? true [] details).map fun _ => complexDependency
  | _ => none

/-- A kind is an object with its tag under `type`, or an array that starts with the tag. -/
def DiagnosticKind.ofJson? (j : Json) : Option DiagnosticKind := do
  match j with
  | .object members =>
    let tag ← required string? (← member? members ["type"])
    ofDetails? tag (.object (members.filter fun (key, _) => key ≠ "type"))
  | .array (.string tag :: details) => ofDetails? tag (.array details)
  | _ => none

def Diagnostic.ofJson? (j : Json) : Option Diagnostic := do
  match ← fields? true
    [["rule"], ["kind"], ["hook_name"], ["missing"], ["unnecessary"], ["duplicate"],
     ["message"], ["severity"], ["span"], ["suggestion"]] j with
  | [rule, kind, hookName, missing, unnecessary, duplicate, message, severity, span,
      suggestion] =>
    return {
      rule := ← required string? rule
      kind := ← required DiagnosticKind.ofJson? kind
      hookName := ← required string? hookName
      missing := ← defaulted [] (list? string?) missing
      unnecessary := ← defaulted [] (list? string?) unnecessary
      duplicate := ← defaulted [] (list? string?) duplicate
      message := ← required string? message
      severity := ← required Severity.ofJson? severity
      span := ← required Span.ofJson? span
      suggestion := ← defaulted none (nullable? Suggestion.ofJson?) suggestion }
  | _ => none

def FileReport.ofJson? (j : Json) : Option FileReport := do
  match ← fields? true [["path"], ["diagnostics"], ["error"]] j with
  | [path, diagnostics, error] =>
    return {
      path := ← required string? path
      diagnostics := ← required (list? Diagnostic.ofJson?) diagnostics
      error := ← defaulted none (nullable? string?) error }
  | _ => none

def Counts.ofJson? (j : Json) : Option Counts := do
  match ← fields? true
    [["critical"], ["high"], ["medium"], ["low"], ["info"], ["total"], ["fixable"]] j with
  | [critical, high, medium, low, info, total, fixable] =>
    return {
      critical := ← required nat64? critical
      high := ← required nat64? high
      medium := ← required nat64? medium
      low := ← required nat64? low
      info := ← required nat64? info
      total := ← required nat64? total
      fixable := ← required nat64? fixable }
  | _ => none

def CheckReport.ofJson? (j : Json) : Option CheckReport := do
  match ← fields? true [["root"], ["files_analyzed"], ["files"], ["summary"]] j with
  | [root, filesAnalyzed, files, summary] =>
    return {
      root := ← required string? root
      filesAnalyzed := ← required nat64? filesAnalyzed
      files := ← required (list? FileReport.ofJson?) files
      summary := ← required Counts.ofJson? summary }
  | _ => none

end HookLint

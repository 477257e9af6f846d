/-
The report for a terminal.

Findings are grouped by file, one line each and a second one for a suggestion, and
counted at the end.  Colour is laid over the text by a palette, whose plain form is
empty everywhere.
-/
import HookLint.Diagnostic.Report
import HookLint.Files.Path

namespace HookLint.Report

/-- What is written to switch styles. -/
structure Palette where
  bold : String := ""
  dim : String := ""
  reset : String := ""
  underline : String := ""
  green : String := ""
  red : String := ""
  severity : Severity → String := fun _ => ""

namespace Palette

/-- No styles. -/
def plain : Palette := {}

/-- The control sequence that switches to a style. -/
def sequence (style : String) : String := "\x1b[" ++ style ++ "m"

/-- Terminal styles. -/
def styled : Palette :=
  { bold := sequence "1", dim := sequence "2", reset := sequence "0", underline := sequence "4"
    green := sequence "32", red := sequence "31"
    severity := fun
      | .critical => sequence "31"
      | .high => sequence "91"
      | .medium => sequence "33"
      | .low => sequence "34"
      | .info => sequence "90" }

def ofColor (color : Bool) : Palette := if color then styled else plain

end Palette

/-- Blanks that make a text up to a width. -/
def padding (width : Nat) (s : String) : String :=
  String.ofList (List.replicate (width - s.length) ' ')

def padLeft (width : Nat) (s : String) : String := padding width s ++ s

def padRight (width : Nat) (s : String) : String := s ++ padding width s

namespace Palette

/-- The lines of a finding. -/
def diagnostic (p : Palette) (d : Diagnostic) : String :=
  let position := Nat.repr d.span.startLine ++ ":" ++ Nat.repr d.span.startColumn
  "  " ++ p.dim ++ padLeft 7 position ++ p.reset ++
    "  " ++ p.severity d.severity ++ padRight 8 d.severity.name ++ p.reset ++
    "  " ++ d.message ++ "  " ++ p.dim ++ d.rule ++ p.reset ++ "\n" ++
    match d.suggestion with
    | some s => "           " ++ p.green ++ "fix:" ++ p.reset ++ " " ++ s.description ++ "\n"
    | none => ""

/-- The lines of a file; none when there is nothing to say. -/
def file (p : Palette) (root : String) (f : FileReport) : String :=
  if f.diagnostics.isEmpty && f.error.isNone then ""
  else
    "\n" ++ p.underline ++ Files.Path.display root f.path ++ p.reset ++ "\n" ++
      (match f.error with
        | some e => "  " ++ p.red ++ "error" ++ p.reset ++ "  " ++ e ++ "\n"
        | none => "") ++
      String.join (f.diagnostics.map p.diagnostic)

/-- The counts of the severities that were found, the worst first. -/
def countParts (counts : Counts) : List String :=
  (Severity.worstFirst.filter fun s => 0 < counts.ofSeverity s).map fun s =>
    Nat.repr (counts.ofSeverity s) ++ " " ++ s.name

/-- The lines at the end. -/
def summary (p : Palette) (counts : Counts) (files : Nat) : String :=
  if counts.total = 0 then
    "\n" ++ p.green ++ "✓" ++ p.reset ++ " No problems found in " ++ Nat.repr files ++ " files\n"
  else
    "\n" ++ p.bold ++ p.red ++ "✖ " ++ Nat.repr counts.total ++
      (if counts.total = 1 then " problem (" else " problems (") ++
      Text.join ", " (countParts counts) ++ ")" ++ p.reset ++
      " in " ++ Nat.repr files ++ " files\n" ++
      if counts.fixable = 0 then ""
      else "  " ++ p.dim ++ Nat.repr counts.fixable ++ " fixable with `hookdeps fix`" ++ p.reset ++
        "\n"

end Palette

/-- The report for a terminal. -/
def text (color : Bool) (r : CheckReport) : String :=
  let p := Palette.ofColor color
  String.join (r.files.map (p.file r.root)) ++ p.summary r.summary r.filesAnalyzed

end HookLint.Report

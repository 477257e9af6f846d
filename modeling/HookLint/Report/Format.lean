/-
The formats a report can be written in.
-/
import HookLint.Diagnostic.Encode
import HookLint.Report.Sarif
import HookLint.Report.Text

namespace HookLint.Report

inductive Format where
  | text
  | json
  | sarif
  deriving DecidableEq, Repr

namespace Format

def name : Format → String
  | text => "text"
  | json => "json"
  | sarif => "sarif"

/-- The usual extension of a file in this format. -/
def extension : Format → String
  | text => "txt"
  | json => "json"
  | sarif => "sarif.json"

/-- Reads the name of a format in any letter case. -/
def parse? (s : String) : Option Format :=
  match HookLint.Text.lower s with
  | "text" => some text
  | "txt" => some text
  | "terminal" => some text
  | "json" => some json
  | "sarif" => some sarif
  | _ => none

/-- What is said of a text that names no format. -/
def unknownMessage (s : String) : String :=
  s!"Unknown format '{s}'. Valid formats: text, json, sarif"

end Format

/-- A report in a format.  Colour is for terminals only; `time` is when the run ended. -/
def render (format : Format) (color : Bool) (time : String) (r : CheckReport) : String :=
  match format with
  | .text => text color r
  | .json => r.toJson.render
  | .sarif => ((Sarif.Log.ofReport r).toJson time).render

end HookLint.Report

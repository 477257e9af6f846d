/-
The report in the Static Analysis Results Interchange Format, version 2.1.0.
-/
import HookLint.Dependency.Analysis
import HookLint.Diagnostic.Report
import HookLint.Files.Path
import HookLint.Format.Json
import HookLint.Format.Sha256

namespace HookLint.Report.Sarif

/-- The level of a severity. -/
inductive Level where
  | note
  | warning
  | error
  deriving DecidableEq, Repr

namespace Level

def ofSeverity : Severity → Level
  | .critical | .high => error
  | .medium => warning
  | .low | .info => note

def name : Level → String
  | note => "note"
  | warning => "warning"
  | error => "error"

end Level

/-! ### The parts of a log -/

/-- A rule that has results. -/
structure RuleEntry where
  id : String
  level : Level
  deriving DecidableEq, Repr

/-- A suggested change of a file. -/
structure Change where
  description : String
  offset : Nat
  length : Nat
  text : String
  deriving DecidableEq, Repr

/-- A finding. -/
structure Result where
  uri : String
  level : Level
  diagnostic : Diagnostic
  fingerprint : String
  fix : Option Change
  deriving DecidableEq, Repr

/-- A file that could not be checked. -/
structure Notification where
  uri : String
  text : String
  deriving DecidableEq, Repr

/-- The log of a run. -/
structure Log where
  rules : List RuleEntry
  results : List Result
  notifications : List Notification
  deriving DecidableEq, Repr

/-! ### From a report to a log -/

/-- Takes a finding into a list of rules, each with the worst it found so far.  The list is in
order of the names of the rules. -/
def raise (d : Diagnostic) : List (String × Severity) → List (String × Severity)
  | [] => [(d.rule, d.severity)]
  | (id, worst) :: rest =>
    if d.rule < id then (d.rule, d.severity) :: (id, worst) :: rest
    else if d.rule = id then (id, worst.max d.severity) :: rest
    else (id, worst) :: raise d rest

/-- The rules that found something, in order of their names, each with the worst it found. -/
def worstByRule (ds : List Diagnostic) : List (String × Severity) :=
  ds.foldl (fun rules d => raise d rules) []

/-- What a finding is known by, wherever in its file it stands: a digest of the rule, the
file, the hook and the message. -/
def fingerprintOf (uri : String) (d : Diagnostic) : String :=
  Sha256.hex (Sha256.digest ([d.rule, uri, d.hookName, d.message].flatMap fun part =>
    part.toUTF8.data.toList ++ [0]))

def Change.ofSuggestion (s : Suggestion) : Change :=
  { description := s.description, offset := s.replacement.span.start
    length := s.replacement.span.length, text := s.replacement.text }

def Result.ofFinding (root : String) (file : FileReport) (d : Diagnostic) : Result :=
  let uri := Files.Path.display root file.path
  { uri, level := Level.ofSeverity d.severity, diagnostic := d, fingerprint := fingerprintOf uri d
    fix := d.suggestion.map Change.ofSuggestion }

/-- The log of a report. -/
def Log.ofReport (r : CheckReport) : Log :=
  { rules := (worstByRule (r.findings.map (·.2))).map fun (id, worst) =>
      { id, level := Level.ofSeverity worst }
    results := r.findings.map fun (file, d) => Result.ofFinding r.root file d
    notifications := r.files.filterMap fun file =>
      file.error.map fun text => { uri := Files.Path.display r.root file.path, text } }

/-! ### From a log to JSON -/

def message (text : String) : Json := .object [("text", .string text)]

def artifact (uri : String) : Json :=
  .object [("uri", .string uri), ("uriBaseId", .string "%SRCROOT%")]

/-- What a rule is about. -/
def ruleDescription (id : String) : String :=
  if id = Dependency.ruleName then Dependency.ruleDescription else "hookdeps rule"

def RuleEntry.toJson (r : RuleEntry) : Json :=
  .object
    [("id", .string r.id), ("name", .string r.id),
     ("shortDescription", message (ruleDescription r.id)),
     ("defaultConfiguration", .object [("level", .string r.level.name)])]

def Change.toJson (c : Change) (uri : String) : Json :=
  .object
    [("description", message c.description),
     ("artifactChanges", .array [.object
       [("artifactLocation", artifact uri),
        ("replacements", .array [.object
          [("deletedRegion", .object
             [("byteOffset", .nat c.offset), ("byteLength", .nat c.length)]),
           ("insertedContent", message c.text)]])]])]

/-- A list of names, left out when empty. -/
def names (key : String) (l : List String) : List (String × Json) :=
  Json.optional key (if l.isEmpty then none else some (Json.strings l))

def Result.toJson (r : Result) : Json :=
  let d := r.diagnostic
  .object (
    [("ruleId", .string d.rule), ("level", .string r.level.name), ("message", message d.message),
     ("locations", .array [.object [("physicalLocation", .object
       [("artifactLocation", artifact r.uri),
        ("region", .object
          [("startLine", .nat d.span.startLine), ("startColumn", .nat d.span.startColumn),
           ("endLine", .nat d.span.stopLine), ("endColumn", .nat d.span.stopColumn)])])]]),
     ("partialFingerprints", .object [("hookdeps/diagnostic/v1", .string r.fingerprint)]),
     ("properties", .object (
       [("severity", .string d.severity.name), ("hook", .string d.hookName)] ++
         names "missing" d.missing ++ names "unnecessary" d.unnecessary))] ++
    Json.optional "fixes" (r.fix.map fun c => .array [c.toJson r.uri]))

def Notification.toJson (n : Notification) : Json :=
  .object
    [("level", .string "error"), ("message", message n.text),
     ("locations", .array [.object
       [("physicalLocation", .object [("artifactLocation", artifact n.uri)])]])]

/-- The version the program gives of itself. -/
def toolVersion : String := "0.1.0"

/-- A log as JSON; `time` is when the run ended. -/
def Log.toJson (log : Log) (time : String) : Json :=
  .object
    [("$schema", .string
       "https://raw.githubusercontent.com/oasis-tcs/sarif-spec/master/Schemata/sarif-schema-2.1.0.json"),
     ("version", .string "2.1.0"),
     ("runs", .array [.object
       [("tool", .object [("driver", .object
          [("name", .string "hookdeps"), ("version", .string toolVersion),
           ("rules", .array (log.rules.map RuleEntry.toJson))])]),
        ("results", .array (log.results.map Result.toJson)),
        ("invocations", .array [.object (
          [("executionSuccessful", .bool true), ("endTimeUtc", .string time)] ++
          Json.optional "toolExecutionNotifications"
            (if log.notifications.isEmpty then none
             else some (.array (log.notifications.map Notification.toJson))))])]])]

end HookLint.Report.Sarif

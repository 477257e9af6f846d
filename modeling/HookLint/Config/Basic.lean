/-
Configuration of a project.
-/
import HookLint.Dependency.Analysis
import HookLint.Files.Path
import HookLint.Hook.PatternReader

namespace HookLint

open HookLint.Hook

namespace Config

/-- Settings of the dependency check, as written. -/
structure RuleSettings where
  enabled : Bool := true
  severity : Option String := none
  safeHooks : List SafeHook := []
  /-- a pattern for the names of further hooks -/
  additionalHooks : Option String := none
  hookPrefixes : List String := []
  deriving DecidableEq, Repr

/-- Which files are passed over. -/
structure Exclusion where
  paths : List String := []
  /-- the built-in patterns do not hold -/
  skipDefaults : Bool := false
  deriving DecidableEq, Repr

/-- Defaults for command line options. -/
structure Defaults where
  format : Option String := none
  workers : Option Nat := none
  failOn : Option String := none
  deriving DecidableEq, Repr

end Config

/-- The settings of a project. -/
structure Config where
  rule : Config.RuleSettings := {}
  exclude : Config.Exclusion := {}
  defaults : Config.Defaults := {}
  deriving DecidableEq, Repr

namespace Config

/-- Patterns for code that is generated or not one's own. -/
def defaultPatterns : List String :=
  ["**/node_modules/**", "**/vendor/**", "**/bower_components/**", "**/dist/**", "**/build/**",
   "**/coverage/**", "**/*.min.js", "**/*.bundle.js"]

/-- The patterns that hold: built-in ones, then the project's own, each once. -/
def Exclusion.patterns (e : Exclusion) : List String :=
  Dependency.firsts ((if e.skipDefaults then [] else defaultPatterns) ++ e.paths)

/-- A check is enabled unless its settings say otherwise. -/
def isEnabled (c : Config) (name : String) : Bool :=
  if name = Dependency.ruleName then c.rule.enabled else true

/-! ### Faults -/

/-- What can be wrong with a configuration. -/
inductive Fault where
  /-- the file cannot be read -/
  | unreadable (path reason : String)
  | invalidToml (path : String)
  | invalidJson (path : String)
  /-- the pattern for further hooks is no pattern -/
  | invalidPattern (pattern : String)
  | invalidSeverity (severity : String)
  deriving DecidableEq, Repr

/-- What lies behind a fault, when something does. -/
def Fault.cause? : Fault → Option String
  | unreadable _ reason => some reason
  | invalidToml _ => some "TOML parse error"
  | invalidJson _ => some "JSON parse error"
  | invalidPattern _ => some "regex parse error"
  | invalidSeverity _ => none

/-- What is said of a fault. -/
def Fault.message (f : Fault) : String :=
  let head := match f with
    | unreadable path _ => s!"Failed to read {path}: "
    | invalidToml path => s!"Invalid TOML in {path}: "
    | invalidJson path => s!"Invalid JSON in {path}: "
    | invalidPattern pattern => s!"Invalid additional_hooks pattern '{pattern}': "
    | invalidSeverity severity => "Invalid severity: " ++ Severity.unknownMessage severity
  head ++ f.cause?.getD ""

/-! ### Options of the check -/

/-- The severity of findings; medium when none is set. -/
def RuleSettings.severityOf (r : RuleSettings) : Except Fault Severity :=
  match r.severity with
  | none => .ok .medium
  | some s =>
    match Severity.parse? s with
    | some severity => .ok severity
    | none => .error (.invalidSeverity s)

/-- The pattern for further hooks; an empty one is none. -/
def RuleSettings.patternOf (r : RuleSettings) : Except Fault (Option Pattern) :=
  match r.additionalHooks with
  | none => .ok none
  | some "" => .ok none
  | some text =>
    match Pattern.parse? text with
    | some p => .ok (some p)
    | none => .error (.invalidPattern text)

/-- The options that settings ask for.  A wrong severity is found before a wrong pattern. -/
def RuleSettings.options (r : RuleSettings) : Except Fault Dependency.Options := do
  let severity ← r.severityOf
  let pattern ← r.patternOf
  return { severity, convention := Convention.make r.hookPrefixes pattern r.safeHooks }

end Config

end HookLint

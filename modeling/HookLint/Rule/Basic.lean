/-
Checks on a source.
-/
import HookLint.Config.Basic
import HookLint.Diagnostic.Report
import HookLint.Syntax.Language

namespace HookLint

/-- A source with its syntax tree. -/
structure SourceUnit where
  path : String
  source : String
  tree : Syntax.Tree

/-- How running a rule ends. -/
inductive Outcome where
  | found (diagnostics : List Diagnostic)
  /-- the rule gives up, for a reason -/
  | failed (reason : String)
  /-- the rule breaks down, with the message given -/
  | crashed (message : String)
  deriving DecidableEq, Repr

namespace Outcome

/-- What a rule found; one that does not end well finds nothing. -/
def diagnostics : Outcome → List Diagnostic
  | found ds => ds
  | _ => []

/-- Why a rule did not end well. -/
def error? : Outcome → Option String
  | found _ => none
  | failed reason => some reason
  | crashed message => some ("Panic: " ++ message)

end Outcome

/-- A check that is run on one source at a time. -/
structure Rule where
  name : String
  description : String
  category : String := "correctness"
  check : SourceUnit → Scope.Graph → Outcome

namespace Rule

/-- The check of dependency arrays. -/
def exhaustiveDeps (options : Dependency.Options) : Rule :=
  { name := Dependency.ruleName
    description := Dependency.ruleDescription
    check := fun u graph => .found (Dependency.analyze options u.source graph u.tree) }

/-- The rules a configuration enables.  Settings of a rule that is not enabled are not looked
at. -/
def enabled (config : Config) : Except Config.Fault (List Rule) :=
  if config.isEnabled Dependency.ruleName then
    config.rule.options.map fun options => [exhaustiveDeps options]
  else .ok []

end Rule

end HookLint

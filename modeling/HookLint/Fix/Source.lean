/-
Fixing a source.

A pass checks the text and makes the suggested replacements.  Passes are made until
none is suggested, one changes nothing, or there have been five.
-/
import HookLint.Fix.Apply
import HookLint.Fix.Patch
import HookLint.Rule.Engine

namespace HookLint.Fix

/-- How many passes are made at most. -/
def maxPasses : Nat := 5

/-- Finds what there is to report in a text; the first argument counts the passes already
made on it. -/
abbrev Checker := Nat → String → List Diagnostic

/-- A text after fixing. -/
structure Fixed where
  text : String
  /-- how many replacements were made -/
  applied : Nat
  /-- how many passes changed the text -/
  passes : Nat
  /-- what there still is to report -/
  remaining : List Diagnostic
  deriving DecidableEq, Repr

/-- The replacements that findings suggest. -/
def replacements (found : List Diagnostic) : List Replacement :=
  found.filterMap fun d => d.suggestion.map (·.replacement)

/-- Makes at most `limit` passes after `passes` that were made. -/
def fixWithin (check : Checker) (limit passes applied : Nat) (text : String) :
    Except Misplaced Fixed :=
  let found := check passes text
  let settled (applied : Nat) : Fixed := { text, applied, passes, remaining := found }
  match limit with
  | 0 => .ok (settled applied)
  | limit + 1 =>
    if (replacements found).isEmpty then .ok (settled applied)
    else match apply text (replacements found) with
      | .error misplaced => .error misplaced
      | .ok outcome =>
        if outcome.text = text then .ok (settled (applied + outcome.applied))
        else fixWithin check limit (passes + 1) (applied + outcome.applied) outcome.text

/-- Fixes a text. -/
def fixText (check : Checker) (text : String) : Except Misplaced Fixed :=
  fixWithin check maxPasses 0 0 text

/-- Why a file cannot be fixed. -/
inductive Failure where
  | misplaced (fault : Misplaced)
  /-- the file is in no known language -/
  | unsupported (path : String)
  | inaccessible (path reason : String)
  deriving DecidableEq, Repr

def Failure.message : Failure → String
  | misplaced fault => fault.message
  | unsupported path => s!"Unsupported file: {path}"
  | inaccessible path reason => s!"Failed to access {path}: {reason}"

/-- A fixed file. -/
structure FileFix where
  path : String
  /-- the text before the first pass -/
  source : String
  fixed : String
  applied : Nat
  remaining : List Diagnostic
  deriving DecidableEq, Repr

namespace FileFix

def isChanged (f : FileFix) : Bool := f.source != f.fixed

def patch (f : FileFix) : String := Fix.patch f.path f.source f.fixed

end FileFix

/-- Fixes a source; `parse` gives the syntax tree of its text after a number of passes. -/
def fixSource (engine : Engine) (parse : Nat → String → Syntax.Tree) (path source : String) :
    Except Failure FileFix :=
  match Syntax.Language.ofPath? path with
  | none => .error (.unsupported path)
  | some _ =>
    let check : Checker := fun passes text =>
      (engine.checkSource { path, source := text, tree := parse passes text }).diagnostics
    match fixText check source with
    | .error fault => .error (.misplaced fault)
    | .ok fixed => .ok {
        path, source, fixed := fixed.text
        applied := fixed.applied, remaining := fixed.remaining }

end HookLint.Fix

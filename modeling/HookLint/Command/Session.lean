/-
What a command works with, and how it ends.
-/
import HookLint.Config.Load
import HookLint.Files.Sources
import HookLint.Fix.Source
import HookLint.Report.Format

namespace HookLint.Command

open HookLint.Files

/-- What a command has at hand. -/
structure Session where
  disk : Disk
  /-- the syntax tree of a file's text after a number of fixing passes -/
  parse : String → Nat → String → Syntax.Tree
  /-- when the command ends -/
  time : String
  /-- how many seconds it takes -/
  elapsed : String
  /-- the terminal shows colours -/
  color : Bool

/-- Why a command fails: a message, and what lies behind it, the nearest first. -/
structure Failure where
  message : String
  causes : List String := []
  deriving DecidableEq, Repr

namespace Failure

/-- Indents the lines after the first. -/
def indentRest (indent s : String) : String := Text.join ("\n" ++ indent) (Text.segments s)

/-- A cause with its number; the number is left out when there is one cause only. -/
def causeLine (number : Option Nat) (cause : String) : String :=
  match number with
  | some n => Report.padLeft 5 (Nat.repr n) ++ ": " ++ indentRest "       " cause
  | none => "    " ++ indentRest "    " cause

/-- What is printed of a failure. -/
def render (f : Failure) : String :=
  let lines := match f.causes with
    | [] => []
    | [cause] => [causeLine none cause]
    | causes => causes.zipIdx.map fun (cause, n) => causeLine (some n) cause
  "Error: " ++ f.message ++
    (if lines.isEmpty then "" else "\n\nCaused by:\n" ++ Text.join "\n" lines) ++ "\n"

def ofFault (f : Config.Fault) : Failure := { message := f.message, causes := f.cause?.toList }

/-- A failure with something said before it. -/
def under (message : String) (f : Failure) : Failure :=
  { message, causes := f.message :: f.causes }

end Failure

/-- How a command ends. -/
structure Outcome where
  code : Nat := 0
  out : String := ""
  err : String := ""
  disk : Disk

/-- The end of a command that fails. -/
def failed (disk : Disk) (f : Failure) : Outcome := { code := 1, err := f.render, disk }

/-- What a path leads to. -/
def target (s : Session) (path : String) : Except Failure (Place × Node) :=
  match s.disk.locate path with
  | .ok found => .ok found
  | .error obstacle =>
    .error { message := s!"Path does not exist: {path}", causes := [obstacle.reason] }

/-- A project: its root, its configuration and its source files. -/
structure Workspace where
  root : String
  config : Config
  files : List String

namespace Workspace

/-- The configuration of a project: the file asked for, or the project's own. -/
def configOf (s : Session) (asked : Option String) (root : String) : Except Failure Config :=
  match asked with
  | some path => (Config.load s.disk path).mapError Failure.ofFault
  | none => .ok (Config.loadProject s.disk root)

/-- The sources of a directory. -/
def sourcesIn (s : Session) (config : Config) (place : Place) : Except Failure (List String) :=
  match exclusions config.exclude.patterns with
  | .ok excluded => .ok (sources s.disk excluded place)
  | .error pattern => .error {
      message := s!"Invalid exclude pattern '{pattern}'"
      causes := [s!"error parsing glob '!{pattern}'"] }

/-- What is said of a file that is no source. -/
def unsupported (path : String) : Failure :=
  let extensions := Text.join ", " Syntax.Language.extensions
  { message := s!"Unsupported file type: {path} (expected one of: {extensions})" }

/-- Loads the project at a path.  A file is a project of its own, in its directory. -/
def load (s : Session) (path : String) (asked : Option String) : Except Failure Workspace := do
  match ← target s path with
  | (place, .directory) =>
    let root := s.disk.pathOf place
    let config ← configOf s asked root
    return { root, config, files := ← sourcesIn s config place }
  | (place, .file _) =>
    let file := s.disk.pathOf place
    let root := s.disk.pathOf place.dropLast
    let config ← configOf s asked root
    if isSource file then return { root, config, files := [file] }
    else throw (unsupported file)

/-- The engine of a project.  The number of workers asked for comes before the configured
one. -/
def engine (w : Workspace) (workers : Option Nat) : Except Failure Engine :=
  match Rule.enabled w.config with
  | .ok rules => .ok {
      rules, workers := .ofNat ((workers.orElse fun _ => w.config.defaults.workers).getD 0) }
  | .error fault => .error ((Failure.ofFault fault).under "Invalid rule configuration")

end Workspace

end HookLint.Command

/-
Finding source files.

A file below a directory is found when it has the extension of a source and neither
it nor a directory on the way to it is passed over.  Whether something is passed over
is decided by the first of these that has a say: the exclusion patterns; then the
lists of paths to pass over, of each kind from the nearest directory upwards, those
of the first kind before those of the next; and at last by its name, for what is
hidden is passed over.
-/
import HookLint.Files.Disk
import HookLint.Files.Ignore
import HookLint.Syntax.Language

namespace HookLint.Files

/-- The files that hold lists of paths to pass over, the most important kind first. -/
def ignoreFiles : List Place :=
  [[".hookdepsignore"], [".ignore"], [".gitignore"], [".git", "info", "exclude"]]

/-- The path from one place to another below it. -/
def pathBelow (base place : Place) : String := Text.join "/" (place.drop base.length)

/-- A name that starts with a dot. -/
def isHidden (place : Place) : Bool := place.getLast?.any (Text.startsWith · ".")

/-- The list in a file; a file that is not there or is no text says nothing. -/
def listAt (d : Disk) (place : Place) : List IgnoreLine :=
  match d.files.lookup place with
  | some (.text s) => ignoreLines s
  | _ => []

/-- The directories above a place, the nearest first. -/
def directoriesAbove (place : Place) : List Place :=
  (List.range place.length).reverse.map place.take

/-- What the lists say of a place. -/
def listed? (d : Disk) (place : Place) (isDirectory : Bool) : Option Decision :=
  ignoreFiles.findSome? fun file =>
    (directoriesAbove place).findSome? fun directory =>
      decision? (listAt d (directory ++ file)) (pathBelow directory place) isDirectory

/-- Reads exclusion patterns; fails with the first that is none. -/
def exclusions (patterns : List String) : Except String (List IgnoreLine) :=
  patterns.mapM fun pattern =>
    match IgnoreLine.parse? false ("!" ++ pattern) with
    | some line => .ok { line with decision := line.decision.invert }
    | none => .error pattern

/-- A place below the target is passed over. -/
def isSkipped (d : Disk) (excluded : List IgnoreLine) (target place : Place) (isDirectory : Bool) :
    Bool :=
  match (decision? excluded (pathBelow target place) isDirectory).orElse
      fun _ => listed? d place isDirectory with
  | some decision => decision = .skip
  | none => isHidden place

/-- Neither the file nor a directory on the way to it is passed over. -/
def isReached (d : Disk) (excluded : List IgnoreLine) (target file : Place) : Bool :=
  (List.range (file.length - target.length)).all fun i =>
    let length := target.length + i + 1
    !isSkipped d excluded target (file.take length) (length < file.length)

/-- The extension of a source file. -/
def isSource (path : String) : Bool := (Syntax.Language.ofPath? path).isSome

/-- The source files below a directory, in order of path. -/
def sources (d : Disk) (excluded : List IgnoreLine) (target : Place) : List String :=
  let found := (d.files.map (·.1)).filter fun file =>
    target.isPrefixOf file && isSource (d.pathOf file) && isReached d excluded target file
  (found.map d.pathOf).mergeSort Path.le

end HookLint.Files

/-
A directory and its files.

A path is resolved step by step: every step but the last has to lead to a directory.
What prevents reading or writing is an obstacle, with the words the system has for
it.
-/
import HookLint.Files.Path

namespace HookLint.Files

/-- What a file holds. -/
inductive Content where
  | text (s : String)
  /-- bytes that are no text -/
  | binary
  deriving DecidableEq, Repr

def Content.text? : Content → Option String
  | text s => some s
  | binary => none

/-- Where a file or a directory is: the names from the root on. -/
abbrev Place := List String

/-- A directory with the files in it and below it. -/
structure Disk where
  /-- how the directory is called in paths -/
  root : String
  files : List (Place × Content)

/-- What can be at a place. -/
inductive Node where
  | directory
  | file (content : Content)
  deriving DecidableEq, Repr

/-- Why a file cannot be used. -/
inductive Obstacle where
  | missing
  | notDirectory
  | isDirectory
  | notText
  deriving DecidableEq, Repr

def Obstacle.reason : Obstacle → String
  | missing => "No such file or directory (os error 2)"
  | notDirectory => "Not a directory (os error 20)"
  | isDirectory => "Is a directory (os error 21)"
  | notText => "stream did not contain valid UTF-8"

namespace Disk

/-- What is at a place. -/
def node? (d : Disk) (place : Place) : Option Node :=
  match d.files.lookup place with
  | some content => some (.file content)
  | none =>
    if place.isEmpty || d.files.any (fun (p, _) => place.isPrefixOf p) then some .directory
    else none

/-- The path of a place. -/
def pathOf (d : Disk) (place : Place) : String := Text.join "/" (d.root :: place)

/-- Goes from a directory by one step. -/
def follow (d : Disk) (place : Place) (step : Component) : Except Obstacle Place :=
  match d.node? place with
  | none => .error .missing
  | some (.file _) => .error .notDirectory
  | some .directory =>
    match step with
    | .normal name => .ok (place ++ [name])
    | .current => .ok place
    | .parent => if place.isEmpty then .error .missing else .ok place.dropLast
    | .root => .error .missing

/-- The place a path leads to; nothing need be there. -/
def resolve (d : Disk) (path : String) : Except Obstacle Place :=
  let base := Path.components d.root
  let steps := Path.components path
  let steps := if base.isPrefixOf steps then steps.drop base.length else steps
  steps.foldlM d.follow []

/-- The path can only be that of a directory: it ends in a slash. -/
def asksForDirectory (path : String) : Bool :=
  match (Path.pieces path).reverse with
  | last :: _ :: _ => last = "" || last = "."
  | _ => false

/-- What a path leads to, and where that is. -/
def locate (d : Disk) (path : String) : Except Obstacle (Place × Node) := do
  let place ← d.resolve path
  match d.node? place with
  | none => throw .missing
  | some node =>
    if asksForDirectory path && node ≠ .directory then throw .notDirectory
    else return (place, node)

/-- There is something at the end of a path. -/
def contains (d : Disk) (path : String) : Bool :=
  match d.locate path with
  | .ok _ => true
  | .error _ => false

/-- The text of a file. -/
def read (d : Disk) (path : String) : Except Obstacle String := do
  match ← d.locate path with
  | (_, .file (.text s)) => return s
  | (_, .file .binary) => throw .notText
  | (_, .directory) => throw .isDirectory

/-- The files with one more, or with one replaced. -/
def put (place : Place) (content : Content) :
    List (Place × Content) → List (Place × Content)
  | [] => [(place, content)]
  | (p, old) :: rest =>
    if p = place then (p, content) :: rest else (p, old) :: put place content rest

/-- Writes a file. -/
def write (d : Disk) (path text : String) : Except Obstacle Disk := do
  let place ← d.resolve path
  match d.node? place.dropLast, d.node? place with
  | _, some .directory => throw .isDirectory
  | some .directory, _ =>
    if asksForDirectory path then throw .isDirectory
    else return { d with files := put place (.text text) d.files }
  | some (.file _), _ => throw .notDirectory
  | none, _ => throw .missing

/-- The files of one directory that are not the same in another: their places and what they
hold. -/
def changes (before after : Disk) : List (Place × Content) :=
  after.files.filter fun (place, content) => before.files.lookup place ≠ some content

end Disk

end HookLint.Files

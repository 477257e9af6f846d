/-
Lists of paths to pass over.

Such a list has a pattern on a line.  The last line that matches a path decides: it
is passed over, or kept when the line starts with an exclamation mark.  A pattern
with a slash in it, other than at its end, is matched against the whole path from the
list's directory on; any other against the end of the path.  A slash at the end
restricts a pattern to directories.
-/
import HookLint.Files.Glob
import HookLint.Text.Blank

namespace HookLint.Files

/-- What is to become of a path. -/
inductive Decision where
  | skip
  | keep
  deriving DecidableEq, Repr

/-- The opposite decision. -/
def Decision.invert : Decision → Decision
  | skip => keep
  | keep => skip

/-- A line of a list. -/
structure IgnoreLine where
  glob : Glob
  decision : Decision
  onlyDirectories : Bool

namespace IgnoreLine

/-- A line without the white space at its end, unless a backslash protects it. -/
def trimLine (line : String) : String :=
  if Text.endsWith line "\\ " then line else Text.trimEnd line

/-- Cuts a sign off the front, and says whether it was there. -/
def cutFront (sign : String) (s : String) : Bool × String :=
  match Text.afterPrefix? s sign with
  | some rest => (true, rest)
  | none => (false, s)

/-- Cuts a slash off the end, with the backslash before it, and says whether it was there. -/
def cutSlash (s : String) : Bool × String :=
  match s.toList.reverse with
  | '/' :: '\\' :: rest => (true, String.ofList rest.reverse)
  | '/' :: rest => (true, String.ofList rest.reverse)
  | _ => (false, s)

/-- The glob of a pattern.  One without a slash matches in every directory; one that ends in
two stars matches only what is inside. -/
def globText (anchored : Bool) (pattern : String) : String :=
  let free := !anchored && !pattern.toList.contains '/' && pattern ≠ "**"
  let glob := if free then "**/" ++ pattern else pattern
  if Text.endsWith glob "/**" then glob ++ "/*" else glob

/-- The parts of a line: whether it keeps, whether it starts at the list's directory, and
its pattern. -/
def split (line : String) : Bool × Bool × String :=
  if Text.startsWith line "\\!" || Text.startsWith line "\\#" then
    (false, false, String.ofList (line.toList.drop 1))
  else
    let (keeps, line) := cutFront "!" line
    let (anchored, line) := cutFront "/" line
    (keeps, anchored, line)

/-- Reads a line; comments, blank lines and lines that are no pattern say nothing. -/
def parse? (lenient : Bool) (text : String) : Option IgnoreLine :=
  if Text.startsWith text "#" then none
  else
    let line := trimLine text
    if line = "" then none
    else
      let (keeps, anchored, pattern) := split line
      let (onlyDirectories, pattern) := cutSlash pattern
      (Glob.parse? lenient (globText anchored pattern)).map fun glob =>
        { glob, decision := if keeps then .keep else .skip, onlyDirectories }

/-- The line has a say on a path. -/
def concerns (l : IgnoreLine) (path : String) (isDirectory : Bool) : Bool :=
  (isDirectory || !l.onlyDirectories) && l.glob.accepts path

end IgnoreLine

/-- The lines of a list; a mark of the byte order may stand before the first. -/
def ignoreLines (text : String) : List IgnoreLine :=
  let text := (Text.afterPrefix? text "\uFEFF").getD text
  (Text.lines text).filterMap (IgnoreLine.parse? true)

/-- What a list says of a path. -/
def decision? (lines : List IgnoreLine) (path : String) (isDirectory : Bool) : Option Decision :=
  (lines.reverse.find? (·.concerns path isDirectory)).map (·.decision)

end HookLint.Files

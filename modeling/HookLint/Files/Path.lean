/-
File paths.

A path is a text whose pieces are separated by slashes.  Its components are the
pieces that say something: empty pieces and single dots are passed over, but for a
dot that a relative path starts with.  Paths are compared, ordered and cut by
component.
-/
import HookLint.Text.Blank

namespace HookLint.Files

/-- One step of a path. -/
inductive Component where
  | root
  | current
  | parent
  | normal (name : String)
  deriving DecidableEq, Repr

namespace Component

/-- The place of a component's sort in the order of components. -/
def rank : Component → Nat
  | root => 0
  | current => 1
  | parent => 2
  | normal _ => 3

/-- `a` does not come after `b`; names are ordered by character. -/
def le (a b : Component) : Bool :=
  match a, b with
  | normal x, normal y => decide (x ≤ y)
  | _, _ => a.rank ≤ b.rank

end Component

namespace Path

/-- The pieces between slashes. -/
def pieces (p : String) : List String := (Text.cutAt '/' p.toList).map String.ofList

/-- The component of a piece that is not the first. -/
def laterComponent? (piece : String) : Option Component :=
  if piece = "" ∨ piece = "." then none
  else if piece = ".." then some .parent
  else some (.normal piece)

/-- The component of the first piece: what stands before the first slash. -/
def firstComponent? (p : String) (piece : String) : Option Component :=
  if piece = "" then if p = "" then none else some .root
  else if piece = "." then some .current
  else laterComponent? piece

/-- The pieces of a path, each with its component if it has one. -/
def parts (p : String) : List (String × Option Component) :=
  match pieces p with
  | [] => []
  | first :: rest =>
    (first, firstComponent? p first) :: rest.map fun piece => (piece, laterComponent? piece)

/-- The components of a path. -/
def components (p : String) : List Component := (parts p).filterMap (·.2)

/-- The path starts at the root. -/
def isAbsolute (p : String) : Bool := Text.startsWith p "/"

/-- Lexicographic order of component lists. -/
def listLe : List Component → List Component → Bool
  | [], _ => true
  | _ :: _, [] => false
  | a :: as, b :: bs => if a = b then listLe as bs else a.le b

/-- `p` does not come after `q`. -/
def le (p q : String) : Bool := listLe (components p) (components q)

/-- The last component, when it is a name. -/
def fileName? (p : String) : Option String :=
  match (components p).getLast? with
  | some (.normal name) => some name
  | _ => none

/-- What follows the last dot of the file name; a name has no extension when its only dot
is its first character. -/
def extension? (p : String) : Option String :=
  match fileName? p with
  | none => none
  | some name =>
    match Text.cutAt '.' name.toList |>.reverse with
    | last :: before =>
      if before.isEmpty ∨ before = [[]] then none else some (String.ofList last)
    | [] => none

/-- Drops pieces from the front until `n` components are gone, then the pieces without
component that follow. -/
def dropComponents : Nat → List (String × Option Component) → List (String × Option Component)
  | 0, parts => parts.dropWhile (·.2.isNone)
  | _ + 1, [] => []
  | n + 1, (_, none) :: parts => dropComponents (n + 1) parts
  | n + 1, (_, some _) :: parts => dropComponents n parts

/-- The parts without the pieces at the end that have no component. -/
def trimParts (parts : List (String × Option Component)) : List (String × Option Component) :=
  (parts.reverse.dropWhile (·.2.isNone)).reverse

/-- The text of a list of parts. -/
def joinParts (parts : List (String × Option Component)) : String :=
  if parts = [("", some .root)] then "/" else Text.join "/" (parts.map (·.1))

/-- What `p` adds to `base`, when the components of `base` are the first ones of `p`. -/
def relativeTo? (base p : String) : Option String :=
  let baseComponents := components base
  if baseComponents.isPrefixOf (components p) then
    let rest :=
      if baseComponents.isEmpty then parts p else dropComponents baseComponents.length (parts p)
    some (joinParts (trimParts rest))
  else none

/-- How a report shows a path: relative to its root where possible, with forward slashes. -/
def display (root p : String) : String :=
  let shown := (relativeTo? root p).getD p
  if shown = "" then (fileName? p).getD shown
  else String.ofList (shown.toList.map fun c => if c = '\\' then '/' else c)

/-- `base` followed by a relative path; an absolute path replaces `base`. -/
def append (base p : String) : String :=
  if isAbsolute p || base = "" then p
  else if Text.endsWith base "/" then base ++ p
  else base ++ "/" ++ p

end Path

end HookLint.Files

/-
Dependency paths.

A path is a name followed by properties, joined by dots: `props`, `props.user.name`.
One path covers another when it is the same or names a value the other goes through,
so depending on the first is depending on the second.
-/

namespace HookLint.Dependency

/-- A member path written with dots. -/
structure Path where
  text : String
  deriving DecidableEq, Repr, Inhabited

namespace Path

/-- The path extended by one property. -/
def push (p : Path) (segment : String) : Path := ⟨p.text ++ "." ++ segment⟩

/-- The name before the first dot. -/
def root (p : Path) : String := String.ofList (p.text.toList.takeWhile (· ≠ '.'))

/-- What stands after the last dot. -/
def last (p : Path) : String :=
  String.ofList (p.text.toList.reverse.takeWhile (· ≠ '.')).reverse

/-- The path has at least one property. -/
def hasDot (p : Path) : Bool := p.text.toList.contains '.'

/-- `p` is `q`, or `q` goes on after `p` with a dot. -/
def covers (p q : Path) : Bool :=
  q = p || (p.text.toList ++ ['.']).isPrefixOf q.text.toList

/-- The mutable slot of a ref, such as `ref.current`. -/
def isMutableSlot (p : Path) : Bool := p.hasDot && p.last = "current"

end Path

end HookLint.Dependency

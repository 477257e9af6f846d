/-
What an expression is, seen through its wrapping.

These are the questions the rule asks of a piece of syntax: which function is
called, whether a value is the same on every evaluation, whether it is built
afresh every time, and what a string literal spells.
-/
import HookLint.Syntax.Wrapper

namespace HookLint.Syntax

/-- Ways an expression builds a fresh value every time it runs. -/
inductive Construction where
  | object | array | function | classValue | element | regex | newObject | conditional | logical
  deriving DecidableEq, Repr

/-- The word messages use for a construction. -/
def Construction.describe : Construction → String
  | object => "object"
  | array => "array"
  | function => "function"
  | classValue => "class"
  | element => "JSX element"
  | regex => "regular expression"
  | newObject => "object construction"
  | conditional => "conditional"
  | logical => "logical expression"

/-- A letter, underscore or dollar sign. -/
def isNameStart (c : Char) : Bool := c.isAlpha || c == '_' || c == '$'

/-- A plain name: ASCII letters, digits, underscores and dollar signs, not starting with
a digit. -/
def isIdentifierName (s : String) : Bool :=
  match s.toList with
  | [] => false
  | c :: rest => isNameStart c && rest.all fun d => isNameStart d || d.isDigit

namespace Site

/-- The function carries the keyword `async`. -/
def isAsync (s : Site) : Bool :=
  (s.children.takeWhile fun c => !c.isProper).any (·.kind == .async)

/-- The name of the function called: the last property of a member callee. -/
def calleeName? (callee : Site) (source : String) : Option String :=
  let callee := callee.unwrap
  match callee.kind with
  | .identifier => some (callee.text source)
  | .member => (callee.field? .property).map (·.text source)
  | _ => none

/-- A literal that is the same value on every evaluation. -/
def isPrimitive (s : Site) : Bool :=
  let e := s.unwrap
  match e.kind with
  | .number | .string | .constant => true
  | .templateString => !e.namedChildren.any (·.kind == .templateSubstitution)
  | .unary => (e.field? .argument).any (·.kind == .number)
  | _ => false

/-- What an expression that builds a fresh value builds. -/
def construction? (s : Site) : Option Construction :=
  let e := s.unwrap
  let builds (f : Field) : Bool :=
    match _h : s.unwrap.field? f with
    | some part => (construction? part).isSome
    | none => false
  match e.kind with
  | .object => some .object
  | .array => some .array
  | .arrowFunction | .functionExpression => some .function
  | .classExpression => some .classValue
  | .element | .elementSelfClosing => some .element
  | .regex => some .regex
  | .construct => some .newObject
  | .ternary => if builds .consequence || builds .alternative then some .conditional else none
  | .binary =>
    if (e.field? .operator).any (·.kind == .logicalOperator) then
      if builds .left || builds .right then some .logical else none
    else none
  | _ => none
termination_by sizeOf s.tree
decreasing_by exact Nat.lt_of_lt_of_le (sizeOf_lt_of_field? _h) (sizeOf_unwrap_le s)

/-- What a string literal holds between its quotes. -/
def stringContents? (s : Site) (source : String) : Option String :=
  if s.kind = .string then
    let raw := s.text source
    if Text.byteLength raw < 2 then none else Text.slice? raw 1 (Text.byteLength raw - 1)
  else none

/-- The property a subscript names, when its index is a string that could be written after
a dot. -/
def subscriptKey? (s : Site) (source : String) : Option String :=
  match s.field? .index with
  | none => none
  | some index => (index.unwrap.stringContents? source).filter isIdentifierName

end Site

end HookLint.Syntax

/-
Rows and columns of byte offsets.
-/
import HookLint.Text.Slice

namespace HookLint.Text

/-- A row and a column, both counted from zero, the column in bytes. -/
structure Position where
  row : Nat
  column : Nat
  deriving DecidableEq, Repr

/-- The position after reading the first `offset` bytes of `cs`, started at `p`. -/
def advance (p : Position) (offset : Nat) : List Char → Position
  | [] => { p with column := p.column + offset }
  | c :: cs =>
    if offset = 0 then p
    else if c = '\n' then advance ⟨p.row + 1, 0⟩ (offset - 1) cs
    else if offset < c.utf8Size then { p with column := p.column + offset }
    else advance { p with column := p.column + c.utf8Size } (offset - c.utf8Size) cs

/-- The position of a byte offset: the number of line feeds before it, and the number of
bytes since the last of them. -/
def positionAt (s : String) (offset : Nat) : Position := advance ⟨0, 0⟩ offset s.toList

end HookLint.Text

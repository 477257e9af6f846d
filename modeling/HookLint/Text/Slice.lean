/-
Pieces of a text addressed by byte offsets.

All offsets in this library count bytes of the UTF-8 form of a text.  A piece
exists only when its two ends are in order, inside the text, and on character
boundaries; `slice?` is the one function that cuts, so every other module gets
this check by calling it.
-/

namespace HookLint.Text

/-- Number of bytes of the UTF-8 form. -/
def byteLength (s : String) : Nat := s.utf8ByteSize

/-- `offset` is between two characters of `s`, or at one of its ends. -/
def isBoundary (s : String) (offset : Nat) : Bool := (s.pos? ⟨offset⟩).isSome

/-- The piece of `s` from byte `start` up to byte `stop`. -/
def slice? (s : String) (start stop : Nat) : Option String :=
  if start ≤ stop then
    match s.pos? ⟨start⟩, s.pos? ⟨stop⟩ with
    | some b, some e => some (s.extract b e)
    | _, _ => none
  else none

/-- The piece of `s` from byte `start` to its end. -/
def sliceFrom? (s : String) (start : Nat) : Option String :=
  slice? s start (byteLength s)

end HookLint.Text

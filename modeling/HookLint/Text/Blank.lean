/-
White space and lines.

A character is blank when Unicode gives it the property White_Space.  Trimming
removes blank characters from the ends of a text and nothing else.  A text has
two line views: `segments` cuts at every line feed and loses nothing else, and
`lines` also drops one carriage return before each line feed and does not count
an empty piece after the last line feed.
-/

namespace HookLint.Text

/-- The characters with the Unicode property White_Space. -/
def isBlank (c : Char) : Bool :=
  let n := c.toNat
  (9 ≤ n && n ≤ 13) || n == 0x20 || n == 0x85 || n == 0xA0 || n == 0x1680 ||
    (0x2000 ≤ n && n ≤ 0x200A) || n == 0x2028 || n == 0x2029 || n == 0x202F ||
    n == 0x205F || n == 0x3000

/-- `s` without the blank characters it starts with. -/
def trimStart (s : String) : String := String.ofList (s.toList.dropWhile isBlank)

/-- `s` without the blank characters it ends with. -/
def trimEnd (s : String) : String :=
  String.ofList (s.toList.reverse.dropWhile isBlank).reverse

/-- `s` without the blank characters at either end. -/
def trim (s : String) : String := trimEnd (trimStart s)

/-- The blank characters `s` starts with. -/
def leadingBlank (s : String) : String := String.ofList (s.toList.takeWhile isBlank)

/-- Every character of `s` is blank. -/
def isBlankText (s : String) : Bool := s.toList.all isBlank

/-- `s` starts with `p`. -/
def startsWith (s p : String) : Bool := p.toList.isPrefixOf s.toList

/-- `s` ends with `p`. -/
def endsWith (s p : String) : Bool := p.toList.isSuffixOf s.toList

/-- What follows `p` in `s`, when `s` starts with `p`. -/
def afterPrefix? (s p : String) : Option String :=
  if startsWith s p then some (String.ofList (s.toList.drop p.toList.length)) else none

/-- The pieces of a list between the occurrences of `sep`; there is always one more
piece than there are occurrences. -/
def cutAt {α : Type} [DecidableEq α] (sep : α) : List α → List (List α)
  | [] => [[]]
  | x :: xs =>
    if x = sep then [] :: cutAt sep xs
    else match cutAt sep xs with
      | [] => [[x]]
      | piece :: rest => (x :: piece) :: rest

/-- The pieces of `s` between line feeds. -/
def segments (s : String) : List String := (cutAt '\n' s.toList).map String.ofList

/-- `s` without one carriage return at its end. -/
def dropReturn (s : String) : String :=
  match s.toList.reverse with
  | '\r' :: rest => String.ofList rest.reverse
  | _ => s

/-- The lines of `s`. -/
def lines (s : String) : List String :=
  let pieces := segments s
  match pieces.reverse with
  | [] => []
  | last :: ended =>
    let closed := ended.reverse.map dropReturn
    if last = "" then closed else closed ++ [last]

/-- `parts` with `sep` between neighbours. -/
def join (sep : String) : List String → String
  | [] => ""
  | [part] => part
  | part :: rest => part ++ sep ++ join sep rest

/-- Cutting never yields the empty list of pieces. -/
theorem cutAt_ne_nil {α : Type} [DecidableEq α] (sep : α) (xs : List α) : cutAt sep xs ≠ [] := by
  cases xs with
  | nil => simp [cutAt]
  | cons x xs =>
    unfold cutAt
    split
    · simp
    · split <;> simp

end HookLint.Text

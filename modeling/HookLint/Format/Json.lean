/-
JSON values and their printed form.

Objects keep their members in order and may repeat a key, as a text may.  Numbers
are told apart only as far as the library reads them: an integer that fits in 64
bits, or some other number, kept as it was written.

`render` is the indented form: two blanks a level, one member a line, and nothing
between the brackets of an empty array or object.
-/

namespace HookLint

/-- A JSON value. -/
inductive Json where
  | null
  | bool (b : Bool)
  | int (n : Int)
  /-- a number that is no 64-bit integer, as written -/
  | number (literal : String)
  | string (s : String)
  | array (items : List Json)
  | object (members : List (String × Json))
  deriving Inhabited

namespace Json

/-- The first number that does not fit in 32 bits. -/
def limit32 : Nat := 0x100000000

/-- The first number that does not fit in 64 bits. -/
def limit64 : Nat := 0x10000000000000000

/-- The first positive number that does not fit in 64 bits with a sign. -/
def signedLimit : Nat := 0x8000000000000000

/-- A natural number. -/
def nat (n : Nat) : Json := .int (Int.ofNat n)

/-- A list of strings. -/
def strings (l : List String) : Json := .array (l.map .string)

/-- The member of an object, for a value that may be absent. -/
def optional (key : String) (value : Option Json) : List (String × Json) :=
  match value with
  | some v => [(key, v)]
  | none => []

/-- A hexadecimal digit below sixteen. -/
def hexDigit (n : Nat) : Char := if n < 10 then Char.ofNat (48 + n) else Char.ofNat (87 + n)

/-- How a character is written inside quotes. -/
def escapeChar (c : Char) : List Char :=
  if c = '"' then ['\\', '"']
  else if c = '\\' then ['\\', '\\']
  else if c = '\n' then ['\\', 'n']
  else if c = '\r' then ['\\', 'r']
  else if c = '\t' then ['\\', 't']
  else if c = Char.ofNat 8 then ['\\', 'b']
  else if c = Char.ofNat 12 then ['\\', 'f']
  else if c.toNat < 32 then ['\\', 'u', '0', '0', hexDigit (c.toNat / 16), hexDigit (c.toNat % 16)]
  else [c]

/-- A string with its quotes. -/
def quote (s : String) : List Char := '"' :: (s.toList.flatMap escapeChar ++ ['"'])

/-- The decimal form of an integer. -/
def intChars (n : Int) : List Char :=
  match n with
  | .ofNat m => (Nat.repr m).toList
  | .negSucc m => '-' :: (Nat.repr (m + 1)).toList

/-- A line feed and the indentation of a level. -/
def newline (level : Nat) : List Char := '\n' :: List.replicate (2 * level) ' '

mutual

/-- The printed form of a value that stands at a level. -/
def chars (level : Nat) : Json → List Char
  | .null => ['n', 'u', 'l', 'l']
  | .bool true => ['t', 'r', 'u', 'e']
  | .bool false => ['f', 'a', 'l', 's', 'e']
  | .int n => intChars n
  | .number literal => literal.toList
  | .string s => quote s
  | .array [] => ['[', ']']
  | .array (item :: items) =>
    '[' :: (newline (level + 1) ++ chars (level + 1) item ++ itemChars level items)
  | .object [] => ['\x7b', '\x7d']
  | .object ((key, value) :: members) =>
    '\x7b' :: (newline (level + 1) ++ quote key ++ [':', ' '] ++ chars (level + 1) value ++
      memberChars level members)

/-- The items after the first, and the closing bracket. -/
def itemChars (level : Nat) : List Json → List Char
  | [] => newline level ++ [']']
  | item :: items =>
    ',' :: (newline (level + 1) ++ chars (level + 1) item ++ itemChars level items)

/-- The members after the first, and the closing brace. -/
def memberChars (level : Nat) : List (String × Json) → List Char
  | [] => newline level ++ ['\x7d']
  | (key, value) :: members =>
    ',' :: (newline (level + 1) ++ quote key ++ [':', ' '] ++ chars (level + 1) value ++
      memberChars level members)

end

/-- The indented form. -/
def render (j : Json) : String := String.ofList (chars 0 j)

end Json

end HookLint

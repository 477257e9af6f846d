/-
Reading JSON texts.

The reader takes a value off the front of a list of characters and returns what is
left.  It accepts exactly the JSON grammar: no comments, no trailing commas, no
control characters inside strings, and escaped surrogates only in pairs.

Every level of nesting consumes a character, so the length of the text is enough
fuel for any of its values.
-/
import HookLint.Format.Json

namespace HookLint.Json

/-- The white space of the grammar. -/
def isSpace (c : Char) : Bool := c = ' ' || c = '\n' || c = '\t' || c = '\r'

def skipSpace (cs : List Char) : List Char := cs.dropWhile isSpace

/-- The value of a hexadecimal digit. -/
def hexValue? (c : Char) : Option Nat :=
  if '0' ≤ c ∧ c ≤ '9' then some (c.toNat - 48)
  else if 'a' ≤ c ∧ c ≤ 'f' then some (c.toNat - 87)
  else if 'A' ≤ c ∧ c ≤ 'F' then some (c.toNat - 55)
  else none

/-- The value of four hexadecimal digits. -/
def hex4? (a b c d : Char) : Option Nat := do
  let a ← hexValue? a
  let b ← hexValue? b
  let c ← hexValue? c
  let d ← hexValue? d
  return ((a * 16 + b) * 16 + c) * 16 + d

/-- The character a one-letter escape stands for. -/
def simpleEscape? : Char → Option Char
  | '"' => some '"'
  | '\\' => some '\\'
  | '/' => some '/'
  | 'b' => some (Char.ofNat 8)
  | 'f' => some (Char.ofNat 12)
  | 'n' => some '\n'
  | 'r' => some '\r'
  | 't' => some '\t'
  | _ => none

def isHighSurrogate (n : Nat) : Bool := 0xD800 ≤ n && n ≤ 0xDBFF
def isLowSurrogate (n : Nat) : Bool := 0xDC00 ≤ n && n ≤ 0xDFFF

/-- What one step of reading a string body finds. -/
inductive StringStep where
  | close (rest : List Char)
  | char (c : Char) (rest : List Char)
  | bad

/-- Reads the closing quote or one character, escaped or plain. -/
def stringStep : List Char → StringStep
  | '"' :: rest => .close rest
  | '\\' :: 'u' :: a :: b :: c :: d :: rest =>
    match hex4? a b c d with
    | none => .bad
    | some n =>
      if isHighSurrogate n then
        match rest with
        | '\\' :: 'u' :: a :: b :: c :: d :: rest =>
          match hex4? a b c d with
          | some m =>
            if isLowSurrogate m then
              .char (Char.ofNat (0x10000 + (n - 0xD800) * 0x400 + (m - 0xDC00))) rest
            else .bad
          | none => .bad
        | _ => .bad
      else if isLowSurrogate n then .bad
      else .char (Char.ofNat n) rest
  | '\\' :: e :: rest =>
    match simpleEscape? e with
    | some c => .char c rest
    | none => .bad
  | c :: rest => if c = '\\' ∨ c.toNat < 32 then .bad else .char c rest
  | [] => .bad

/-- Reads a string body up to its closing quote. -/
def stringBody : Nat → List Char → Option (List Char × List Char)
  | 0, _ => none
  | fuel + 1, cs =>
    match stringStep cs with
    | .close rest => some ([], rest)
    | .char c rest => (stringBody fuel rest).map fun (body, rest) => (c :: body, rest)
    | .bad => none

/-- Reads a string after its opening quote. -/
def stringRest (cs : List Char) : Option (String × List Char) :=
  (stringBody (cs.length + 1) cs).map fun (body, rest) => (String.ofList body, rest)

/-- The value of a list of decimal digits. -/
def decimal (cs : List Char) : Nat := cs.foldl (fun n c => n * 10 + (c.toNat - 48)) 0

/-- Digits of the part before the point: no leading zero unless alone. -/
def integerPart (cs : List Char) : Option (List Char × List Char) :=
  match cs with
  | '0' :: rest => if rest.head?.any Char.isDigit then none else some (['0'], rest)
  | _ =>
    let digits := cs.takeWhile Char.isDigit
    if digits.isEmpty then none else some (digits, cs.dropWhile Char.isDigit)

/-- A point and at least one digit, if there is a point. -/
def fractionPart (cs : List Char) : Option (List Char × List Char) :=
  match cs with
  | '.' :: rest =>
    let digits := rest.takeWhile Char.isDigit
    if digits.isEmpty then none else some ('.' :: digits, rest.dropWhile Char.isDigit)
  | _ => some ([], cs)

/-- An exponent with at least one digit, if there is an exponent mark. -/
def exponentPart (cs : List Char) : Option (List Char × List Char) :=
  match cs with
  | c :: rest =>
    if c = 'e' ∨ c = 'E' then
      let (sign, rest) := match rest with
        | '+' :: r => (['+'], r)
        | '-' :: r => (['-'], r)
        | r => ([], r)
      let digits := rest.takeWhile Char.isDigit
      if digits.isEmpty then none
      else some (c :: (sign ++ digits), rest.dropWhile Char.isDigit)
    else some ([], cs)
  | [] => some ([], [])

/-- The number written by a sign and its parts.  Only an integer in the range of 64 bits is
read as one; a negative zero is not. -/
def numberOf (negative : Bool) (whole frac exp : List Char) : Json :=
  let literal := String.ofList ((if negative then ['-'] else []) ++ whole ++ frac ++ exp)
  if frac.isEmpty && exp.isEmpty then
    let n := decimal whole
    if negative then
      if n = 0 ∨ signedLimit < n then .number literal else .int (-n)
    else if n < limit64 then .nat n
    else .number literal
  else .number literal

/-- Reads a number. -/
def numberValue (cs : List Char) : Option (Json × List Char) := do
  let (negative, cs) := match cs with
    | '-' :: rest => (true, rest)
    | _ => (false, cs)
  let (whole, cs) ← integerPart cs
  let (frac, cs) ← fractionPart cs
  let (exp, cs) ← exponentPart cs
  return (numberOf negative whole frac exp, cs)

mutual

/-- Reads a value. -/
def value : Nat → List Char → Option (Json × List Char)
  | 0, _ => none
  | fuel + 1, cs =>
    match skipSpace cs with
    | 'n' :: 'u' :: 'l' :: 'l' :: rest => some (.null, rest)
    | 't' :: 'r' :: 'u' :: 'e' :: rest => some (.bool true, rest)
    | 'f' :: 'a' :: 'l' :: 's' :: 'e' :: rest => some (.bool false, rest)
    | '"' :: rest => (stringRest rest).map fun (s, rest) => (.string s, rest)
    | '[' :: rest =>
      match skipSpace rest with
      | ']' :: rest => some (.array [], rest)
      | _ => (items fuel rest).map fun (xs, rest) => (.array xs, rest)
    | '\x7b' :: rest =>
      match skipSpace rest with
      | '\x7d' :: rest => some (.object [], rest)
      | _ => (members fuel rest).map fun (xs, rest) => (.object xs, rest)
    | cs => numberValue cs

/-- Reads the items of an array that is not empty, and its closing bracket. -/
def items : Nat → List Char → Option (List Json × List Char)
  | 0, _ => none
  | fuel + 1, cs =>
    match value fuel cs with
    | none => none
    | some (item, rest) =>
      match skipSpace rest with
      | ',' :: rest => (items fuel rest).map fun (xs, rest) => (item :: xs, rest)
      | ']' :: rest => some ([item], rest)
      | _ => none

/-- Reads the members of an object that is not empty, and its closing brace. -/
def members : Nat → List Char → Option (List (String × Json) × List Char)
  | 0, _ => none
  | fuel + 1, cs =>
    match skipSpace cs with
    | '"' :: rest =>
      match stringRest rest with
      | none => none
      | some (key, rest) =>
        match skipSpace rest with
        | ':' :: rest =>
          match value fuel rest with
          | none => none
          | some (v, rest) =>
            match skipSpace rest with
            | ',' :: rest => (members fuel rest).map fun (xs, rest) => ((key, v) :: xs, rest)
            | '\x7d' :: rest => some ([(key, v)], rest)
            | _ => none
        | _ => none
    | _ => none

end

/-- The value a text holds, when it holds one and nothing else. -/
def parse? (s : String) : Option Json :=
  match value (2 * s.toList.length + 2) s.toList with
  | some (j, rest) => if (skipSpace rest).isEmpty then some j else none
  | none => none

end HookLint.Json

/-
Reading TOML texts.

The reader accepts version 1.0 of the format.  Times and dates are checked and kept
as an object, since nothing in a configuration is one.
-/
import HookLint.Format.JsonReader
import HookLint.Format.Toml
import HookLint.Text.Blank

namespace HookLint.Toml

/-! ### Blanks, comments and line ends -/

def isBlank (c : Char) : Bool := c = ' ' || c = '\t'

def skipBlank (cs : List Char) : List Char := cs.dropWhile isBlank

/-- A character that may stand in a comment or a string: no control character but the
tabulator. -/
def isPrintable (c : Char) : Bool := c = '\t' || (' ' ≤ c && c.toNat ≠ 127)

/-- What follows a line feed, alone or after a carriage return. -/
def newline? : List Char → Option (List Char)
  | '\n' :: rest => some rest
  | '\r' :: '\n' :: rest => some rest
  | _ => none

/-- Drops a comment. -/
def skipComment : List Char → List Char
  | '#' :: rest => rest.dropWhile isPrintable
  | cs => cs

/-- What follows the end of a line, which may have a comment. -/
def lineEnd? (cs : List Char) : Option (List Char) :=
  match skipComment (skipBlank cs) with
  | [] => some []
  | cs => newline? cs

/-- Drops blanks, comments and line ends. -/
def skipLines : Nat → List Char → List Char
  | 0, cs => cs
  | fuel + 1, cs =>
    match newline? (skipComment (skipBlank cs)) with
    | some rest => skipLines fuel rest
    | none => skipBlank cs

/-! ### Strings -/

/-- The value of hexadecimal digits. -/
def hexDigits? (cs : List Char) : Option Nat :=
  cs.foldlM (fun n c => (Json.hexValue? c).map (n * 16 + ·)) 0

/-- The character with a code written in `width` hexadecimal digits. -/
def codePoint? (width : Nat) (cs : List Char) : Option (Char × List Char) := do
  guard (width ≤ cs.length)
  let n ← hexDigits? (cs.take width)
  guard (n.isValidChar)
  return (Char.ofNat n, cs.drop width)

/-- The character an escape stands for, and what follows; the backslash has been read. -/
def escape? : List Char → Option (Char × List Char)
  | 'b' :: rest => some (Char.ofNat 8, rest)
  | 't' :: rest => some ('\t', rest)
  | 'n' :: rest => some ('\n', rest)
  | 'f' :: rest => some (Char.ofNat 12, rest)
  | 'r' :: rest => some ('\r', rest)
  | '"' :: rest => some ('"', rest)
  | '\\' :: rest => some ('\\', rest)
  | 'u' :: rest => codePoint? 4 rest
  | 'U' :: rest => codePoint? 8 rest
  | _ => none

/-- The body of a string in double quotes, up to the closing quote. -/
def basicBody : Nat → List Char → Option (List Char × List Char)
  | 0, _ => none
  | fuel + 1, cs =>
    match cs with
    | '"' :: rest => some ([], rest)
    | '\\' :: rest => do
      let (c, rest) ← escape? rest
      let (body, rest) ← basicBody fuel rest
      return (c :: body, rest)
    | c :: rest =>
      if isPrintable c then (basicBody fuel rest).map fun (body, rest) => (c :: body, rest)
      else none
    | [] => none

/-- The body of a string in single quotes, up to the closing quote. -/
def literalBody (cs : List Char) : Option (List Char × List Char) :=
  let body := cs.takeWhile fun c => isPrintable c && c ≠ '\''
  match cs.drop body.length with
  | '\'' :: rest => some (body, rest)
  | _ => none

/-- The end of a string in triple quotes, when there is one: up to two quotes that belong to
the string, and what follows. -/
def tripleEnd? (quote : Char) (cs : List Char) : Option (List Char × List Char) :=
  let run := (cs.takeWhile (· = quote)).length
  if run < 3 then none
  else some (List.replicate (min (run - 3) 2) quote, cs.drop (3 + min (run - 3) 2))

/-- What follows a backslash at the end of a line: the next text that is not blank. -/
def joinedLine? (cs : List Char) : Option (List Char) :=
  (newline? (skipBlank cs)).map fun rest => skipJoined rest.length rest
where
  skipJoined : Nat → List Char → List Char
    | 0, cs => cs
    | fuel + 1, cs =>
      match newline? (skipBlank cs) with
      | some rest => skipJoined fuel rest
      | none => skipBlank cs

/-- The body of a string in triple quotes.  Escapes count only when `escapes`. -/
def tripleBody (quote : Char) (escapes : Bool) : Nat → List Char → Option (List Char × List Char)
  | 0, _ => none
  | fuel + 1, cs =>
    match tripleEnd? quote cs with
    | some close => some close
    | none =>
      match newline? cs with
      | some rest =>
        (tripleBody quote escapes fuel rest).map fun (body, rest) => ('\n' :: body, rest)
      | none =>
        match cs with
        | [] => none
        | c :: rest =>
          if escapes && c = '\\' then
            match joinedLine? rest with
            | some rest => tripleBody quote escapes fuel rest
            | none => do
              let (c, rest) ← escape? rest
              let (body, rest) ← tripleBody quote escapes fuel rest
              return (c :: body, rest)
          else if isPrintable c then
            (tripleBody quote escapes fuel rest).map fun (body, rest) => (c :: body, rest)
          else none

/-- A string in triple quotes, which have been read; a line end right after them is dropped. -/
def tripleString? (quote : Char) (escapes : Bool) (cs : List Char) :
    Option (List Char × List Char) :=
  tripleBody quote escapes (cs.length + 1) ((newline? cs).getD cs)

/-- Reads a string of any sort. -/
def string? (cs : List Char) : Option (String × List Char) :=
  let body := match cs with
    | '"' :: '"' :: '"' :: rest => tripleString? '"' true rest
    | '"' :: rest => basicBody (rest.length + 1) rest
    | '\'' :: '\'' :: '\'' :: rest => tripleString? '\'' false rest
    | '\'' :: rest => literalBody rest
    | _ => none
  body.map fun (body, rest) => (String.ofList body, rest)

/-! ### Keys -/

def isBare (c : Char) : Bool := c.isAlphanum || c = '_' || c = '-'

/-- Reads one piece of a key. -/
def simpleKey? (cs : List Char) : Option (String × List Char) :=
  match cs with
  | '"' :: rest => (basicBody (rest.length + 1) rest).map fun (k, rest) => (String.ofList k, rest)
  | '\'' :: rest => (literalBody rest).map fun (k, rest) => (String.ofList k, rest)
  | _ =>
    let key := cs.takeWhile isBare
    if key.isEmpty then none else some (String.ofList key, cs.dropWhile isBare)

/-- Reads the pieces of a key. -/
def keyPieces : Nat → List Char → Option (List String × List Char)
  | 0, _ => none
  | fuel + 1, cs => do
    let (piece, rest) ← simpleKey? (skipBlank cs)
    match skipBlank rest with
    | '.' :: rest =>
      let (pieces, rest) ← keyPieces fuel rest
      return (piece :: pieces, rest)
    | rest => return ([piece], rest)

/-- How deep values may nest, and how many pieces a key may have. -/
def depthLimit : Nat := 80

/-- A key: where it leads, and its last piece. -/
structure Key where
  path : List String
  last : String

/-- Reads a key. -/
def key? (cs : List Char) : Option (Key × List Char) := do
  let (pieces, rest) ← keyPieces (cs.length + 1) cs
  guard (pieces.length < depthLimit)
  return (⟨pieces.dropLast, ← pieces.getLast?⟩, rest)

/-! ### Numbers, truth values and times -/

/-- Digits with single underscores between them. -/
def digits? (isDigit : Char → Bool) (cs : List Char) : Option (List Char) :=
  let groups := Text.cutAt '_' cs
  if groups.all fun g => !g.isEmpty && g.all isDigit then some groups.flatten else none

/-- A sign, and what follows. -/
def sign : List Char → Bool × List Char
  | '-' :: rest => (true, rest)
  | '+' :: rest => (false, rest)
  | cs => (false, cs)

/-- Decimal digits without a leading zero. -/
def decimal? (cs : List Char) : Option Nat :=
  match cs with
  | ['0'] => some 0
  | '0' :: _ => none
  | _ => (digits? Char.isDigit cs).map Json.decimal

/-- The value of digits in a base. -/
def radix? (base : Nat) (cs : List Char) : Option Nat := do
  let digits ← digits? (fun c => (Json.hexValue? c).any (· < base)) cs
  digits.foldlM (fun n c => (Json.hexValue? c).map (n * base + ·)) 0

/-- An integer of 64 bits. -/
def integer? (cs : List Char) : Option Json := do
  let n : Int ← match cs with
    | '0' :: 'x' :: rest => (radix? 16 rest).map Int.ofNat
    | '0' :: 'o' :: rest => (radix? 8 rest).map Int.ofNat
    | '0' :: 'b' :: rest => (radix? 2 rest).map Int.ofNat
    | _ =>
      let (negative, rest) := sign cs
      (decimal? rest).map fun n => if negative then -n else n
  guard (-Int.ofNat Json.signedLimit ≤ n ∧ n < Int.ofNat Json.signedLimit)
  return .int n

/-- A number with a fraction or an exponent. -/
def isFloat (cs : List Char) : Bool :=
  let rest := (sign cs).2
  if rest = "inf".toList ∨ rest = "nan".toList then true
  else
    let isMark (c : Char) : Bool := c = 'e' || c = 'E'
    let mantissa := rest.takeWhile (!isMark ·)
    let exponent := rest.dropWhile (!isMark ·)
    let whole := mantissa.takeWhile (· ≠ '.')
    let fraction := mantissa.dropWhile (· ≠ '.')
    (decimal? whole).isSome && !(fraction.isEmpty && exponent.isEmpty) &&
      (fraction.isEmpty || (digits? Char.isDigit (fraction.drop 1)).isSome) &&
      (exponent.isEmpty || (digits? Char.isDigit (sign (exponent.drop 1)).2).isSome)

/-- A number of exactly `width` digits, and what follows. -/
def fixed? (width : Nat) (cs : List Char) : Option (Nat × List Char) :=
  let digits := cs.take width
  if digits.length = width && digits.all Char.isDigit then
    some (Json.decimal digits, cs.drop width)
  else none

/-- What follows a given character. -/
def after? (c : Char) : List Char → Option (List Char)
  | d :: rest => if d = c then some rest else none
  | [] => none

def daysIn (year month : Nat) : Nat :=
  if month = 2 then
    if (year % 4 = 0 ∧ year % 100 ≠ 0) ∨ year % 400 = 0 then 29 else 28
  else if month = 4 ∨ month = 6 ∨ month = 9 ∨ month = 11 then 30
  else 31

/-- What follows a date. -/
def date? (cs : List Char) : Option (List Char) := do
  let (year, cs) ← fixed? 4 cs
  let (month, cs) ← fixed? 2 (← after? '-' cs)
  let (day, cs) ← fixed? 2 (← after? '-' cs)
  guard (1 ≤ month ∧ month ≤ 12 ∧ 1 ≤ day ∧ day ≤ daysIn year month)
  return cs

/-- What follows a time of day. -/
def time? (cs : List Char) : Option (List Char) := do
  let (hour, cs) ← fixed? 2 cs
  let (minute, cs) ← fixed? 2 (← after? ':' cs)
  let (second, cs) ← fixed? 2 (← after? ':' cs)
  guard (hour ≤ 23 ∧ minute ≤ 59 ∧ second ≤ 60)
  match cs with
  | '.' :: rest =>
    let digits := rest.takeWhile Char.isDigit
    guard (!digits.isEmpty)
    return rest.drop digits.length
  | _ => return cs

/-- A difference to universal time. -/
def isOffset (cs : List Char) : Bool :=
  match cs with
  | [] | ['Z'] | ['z'] => true
  | c :: rest => (c = '+' || c = '-') && (do
      let (hour, cs) ← fixed? 2 rest
      let (minute, cs) ← fixed? 2 (← after? ':' cs)
      guard (hour ≤ 23 ∧ minute ≤ 59)
      return cs.isEmpty).getD false

/-- A date, a time of day, or both. -/
def isMoment (cs : List Char) : Bool :=
  match date? cs with
  | none => (time? cs).any (·.isEmpty)
  | some [] => true
  | some (mark :: rest) => (mark = 'T' || mark = 't' || mark = ' ') && (time? rest).any isOffset

def isTokenChar (c : Char) : Bool :=
  c.isAlphanum || c = '_' || c = '-' || c = '+' || c = '.' || c = ':'

/-- Reads a moment, as an object that holds its text. -/
def moment? (cs : List Char) : Option Json :=
  if isMoment cs then some (.object [("datetime", .string (String.ofList cs))]) else none

/-- The value of a token that is no string. -/
def scalar? (token : List Char) : Option Json :=
  if token = "true".toList then some (.bool true)
  else if token = "false".toList then some (.bool false)
  else (integer? token).orElse fun _ =>
    if isFloat token then some (.number (String.ofList token)) else moment? token

/-- A date, a blank and a time. -/
def spacedMoment? (date : List Char) (rest : List Char) : Option (Json × List Char) :=
  match date? date, rest with
  | some [], ' ' :: more =>
    let time := more.takeWhile isTokenChar
    (moment? (date ++ ' ' :: time)).map fun v => (v, more.drop time.length)
  | _, _ => none

/-- Reads a value without parts. -/
def scalarValue? (cs : List Char) : Option (Json × List Char) :=
  let token := cs.takeWhile isTokenChar
  let rest := cs.drop token.length
  (spacedMoment? token rest).orElse fun _ => (scalar? token).map fun v => (v, rest)

/-! ### Values -/

mutual

/-- Reads a value that stands at a depth. -/
def value : Nat → Nat → List Char → Option (Json × List Char)
  | 0, _, _ => none
  | fuel + 1, depth, cs =>
    match cs with
    | '"' :: _ | '\'' :: _ => (string? cs).map fun (s, rest) => (.string s, rest)
    | '[' :: rest =>
      if depth + 1 < depthLimit then
        (items fuel (depth + 1) (skipLines rest.length rest)).map fun (xs, rest) => (.array xs, rest)
      else none
    | '\x7b' :: rest =>
      if depth + 1 < depthLimit then
        match skipBlank rest with
        | '\x7d' :: rest => some (.object [], rest)
        | rest =>
          (members fuel (depth + 1) [] rest).map fun (ms, rest) => (.object (membersJson ms), rest)
      else none
    | _ => scalarValue? cs

/-- Reads the items of an array, and its closing bracket; lines have been skipped. -/
def items : Nat → Nat → List Char → Option (List Json × List Char)
  | 0, _, _ => none
  | fuel + 1, depth, cs =>
    match cs with
    | ']' :: rest => some ([], rest)
    | _ => do
      let (item, rest) ← value fuel depth cs
      match skipLines rest.length rest with
      | ',' :: rest =>
        let (xs, rest) ← items fuel depth (skipLines rest.length rest)
        return (item :: xs, rest)
      | ']' :: rest => return ([item], rest)
      | _ => none

/-- Reads the members of a table in braces, and its closing brace. -/
def members : Nat → Nat → Members → List Char → Option (Members × List Char)
  | 0, _, _, _ => none
  | fuel + 1, depth, ms, cs => do
    let (key, rest) ← key? cs
    let (v, rest) ← value fuel depth (skipBlank (← after? '=' rest))
    let ms ← Members.assign key.last v true key.path ms
    match skipBlank rest with
    | ',' :: rest => members fuel depth ms rest
    | '\x7d' :: rest => return (ms, rest)
    | _ => none

end

/-! ### Documents -/

/-- Reads a header or an assignment, and the end of its line. -/
def line (d : Document) (cs : List Char) : Option (Document × List Char) :=
  match cs with
  | '[' :: '[' :: rest => do
    let (key, rest) ← key? rest
    let rest ← lineEnd? (← after? ']' (← after? ']' rest))
    return (← d.elementHeader key.path key.last, rest)
  | '[' :: rest => do
    let (key, rest) ← key? rest
    let rest ← lineEnd? (← after? ']' rest)
    return (← d.header key.path key.last, rest)
  | _ => do
    let (key, rest) ← key? cs
    let (v, rest) ← value (cs.length + 1) 0 (skipBlank (← after? '=' rest))
    let rest ← lineEnd? rest
    return (← d.assign key.path key.last v, rest)

/-- Reads the lines of a document. -/
def lines : Nat → Document → List Char → Option Document
  | 0, _, _ => none
  | fuel + 1, d, cs =>
    match skipLines cs.length cs with
    | [] => some d
    | '#' :: rest => if (rest.dropWhile isPrintable).isEmpty then some d else none
    | cs => do
      let (d, rest) ← line d cs
      lines fuel d rest

/-- The data a text holds; a mark of the byte order may stand before it. -/
def parse? (s : String) : Option Json :=
  let cs := match s.toList with
    | '\uFEFF' :: rest => rest
    | cs => cs
  (lines (cs.length + 1) {} cs).map Document.toJson

end HookLint.Toml

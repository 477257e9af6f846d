/-
Reading patterns.

The notation is the usual one for regular expressions: alternation, groups,
repetition, classes, anchors, escapes and inline flags.  A text that is no pattern
reads as nothing; in particular a repetition needs something to repeat, a group or
class has to be closed, and the bounds of ranges and counts have to be in order.

Each call takes at least one character, so the length of the text is enough fuel.
-/
import HookLint.Hook.Pattern

namespace HookLint.Hook.Pattern

/-- Settings that hold from where they are set to the end of their group. -/
structure Flags where
  fold : Bool := false
  dotAll : Bool := false
  deriving Repr

/-- One character of a class or pattern, as itself or as a class of its own. -/
inductive Escape where
  | literal (c : Char)
  | item (i : ClassItem)
  | assertion (p : Pattern)

/-- The value of hexadecimal digits. -/
def hexNumber? (cs : List Char) : Option Nat :=
  cs.foldlM (fun n c =>
    if '0' ≤ c ∧ c ≤ '9' then some (n * 16 + (c.toNat - 48))
    else if 'a' ≤ c ∧ c ≤ 'f' then some (n * 16 + (c.toNat - 87))
    else if 'A' ≤ c ∧ c ≤ 'F' then some (n * 16 + (c.toNat - 55))
    else none) 0

/-- The character of a code point written in hexadecimal. -/
def codePoint? (digits : List Char) : Option Char := do
  let n ← hexNumber? digits
  if digits.isEmpty then none
  else if n.isValidChar then some (Char.ofNat n) else none

/-- Reads the digits of a code point: a fixed number of them, or any number in braces. -/
def codePointEscape? (width : Nat) (cs : List Char) : Option (Escape × List Char) :=
  match cs with
  | '\x7b' :: rest => do
    let digits := rest.takeWhile (· ≠ '\x7d')
    match rest.dropWhile (· ≠ '\x7d') with
    | _ :: rest => return (.literal (← codePoint? digits), rest)
    | [] => none
  | _ =>
    if cs.length < width then none
    else (codePoint? (cs.take width)).map fun c => (.literal c, cs.drop width)

/-- Punctuation that may be escaped to stand for itself. -/
def isEscapable (c : Char) : Bool :=
  c.toNat < 128 && !c.isAlphanum && c != '<' && c != '>'

/-- Reads what follows a backslash. -/
def escape? : List Char → Option (Escape × List Char)
  | [] => none
  | c :: rest =>
    match c with
    | 'd' => some (.item (.digit true), rest)
    | 'D' => some (.item (.digit false), rest)
    | 'w' => some (.item (.word true), rest)
    | 'W' => some (.item (.word false), rest)
    | 's' => some (.item (.space true), rest)
    | 'S' => some (.item (.space false), rest)
    | 'b' => some (.assertion (.wordEdge true), rest)
    | 'B' => some (.assertion (.wordEdge false), rest)
    | 'A' => some (.assertion .start, rest)
    | 'z' => some (.assertion .finish, rest)
    | 'a' => some (.literal (Char.ofNat 7), rest)
    | 'f' => some (.literal (Char.ofNat 12), rest)
    | 't' => some (.literal '\t', rest)
    | 'n' => some (.literal '\n', rest)
    | 'r' => some (.literal '\r', rest)
    | 'v' => some (.literal (Char.ofNat 11), rest)
    | 'x' => codePointEscape? 2 rest
    | 'u' => codePointEscape? 4 rest
    | 'U' => codePointEscape? 8 rest
    | _ => if isEscapable c then some (.literal c, rest) else none

/-- One member of a class: a character or a set of them.  Classes do not nest. -/
def classAtom? : List Char → Option (Escape × List Char)
  | [] => none
  | '[' :: _ => none
  | '\\' :: rest =>
    match escape? rest with
    | some (.assertion _, _) => none
    | found => found
  | c :: rest => some (.literal c, rest)

/-- Reads the members of a class up to its closing bracket. -/
def classItems : Nat → List Char → Option (List ClassItem × List Char)
  | 0, _ => none
  | fuel + 1, cs =>
    match cs with
    | ']' :: rest => some ([], rest)
    | _ => do
      let (first, rest) ← classAtom? cs
      match rest with
      | '-' :: ']' :: _ =>
        let (items, rest) ← classItems fuel rest
        return (ofEscape first :: items, rest)
      | '-' :: rest =>
        let (last, rest) ← classAtom? rest
        match first, last with
        | .literal a, .literal b =>
          if a ≤ b then
            let (items, rest) ← classItems fuel rest
            return (.range a b :: items, rest)
          else none
        | _, _ => none
      | _ =>
        let (items, rest) ← classItems fuel rest
        return (ofEscape first :: items, rest)
where
  /-- A member that is no range. -/
  ofEscape : Escape → ClassItem
    | .literal c => .range c c
    | .item i => i
    | .assertion _ => .range ' ' ' '

/-- Dashes at the start of a class stand for themselves. -/
def leadingDashes : List Char → List ClassItem × List Char
  | '-' :: rest =>
    let (items, rest) := leadingDashes rest
    (.range '-' '-' :: items, rest)
  | cs => ([], cs)

/-- Reads a class after its opening bracket.  A closing bracket that comes first stands for
itself. -/
def charClass? (flags : Flags) (cs : List Char) : Option (Pattern × List Char) := do
  let (negated, cs) := match cs with
    | '^' :: rest => (true, rest)
    | _ => (false, cs)
  let (dashes, cs) := leadingDashes cs
  let (first, cs) := match dashes, cs with
    | [], ']' :: rest => ([ClassItem.range ']' ']'], rest)
    | _, _ => (dashes, cs)
  let (items, rest) ← classItems (cs.length + 1) cs
  return (.char { items := first ++ items, negated, fold := flags.fold }, rest)

/-- A single character. -/
def literal (flags : Flags) (c : Char) : Pattern :=
  .char { items := [.range c c], fold := flags.fold }

/-- Any character, or any but a line feed. -/
def anyChar (flags : Flags) : Pattern :=
  if flags.dotAll then .char { items := [], negated := true }
  else .char { items := [.range '\n' '\n'], negated := true }

/-- A count, which has to fit in 32 bits. -/
def count? (cs : List Char) : Option (Nat × List Char) :=
  let digits := cs.takeWhile Char.isDigit
  let n := digits.foldl (fun n c => n * 10 + (c.toNat - 48)) 0
  if digits.isEmpty || 0x100000000 ≤ n then none else some (n, cs.dropWhile Char.isDigit)

/-- Reads the bounds of a counted repetition after its opening brace. -/
def bounds? (cs : List Char) : Option (Nat × Option Nat × List Char) := do
  let (least, cs) ← match cs with
    | ',' :: _ => some (0, cs)
    | _ => count? cs
  match cs with
  | '\x7d' :: rest => return (least, some least, rest)
  | ',' :: '\x7d' :: rest => return (least, none, rest)
  | ',' :: rest =>
    let (most, rest) ← count? rest
    match rest with
    | '\x7d' :: rest => if least ≤ most then return (least, some most, rest) else none
    | _ => none
  | _ => none

/-- A question mark after a repetition asks for the shortest match, which finds a match in
the same texts. -/
def skipLazy : List Char → List Char
  | '?' :: rest => rest
  | cs => cs

/-- Reads the repetitions that follow a pattern. -/
def repetitions : Nat → Pattern → List Char → Option (Pattern × List Char)
  | 0, p, cs => some (p, cs)
  | fuel + 1, p, cs =>
    match cs with
    | '*' :: rest => repetitions fuel (.repeated p 0 none) (skipLazy rest)
    | '+' :: rest => repetitions fuel (.repeated p 1 none) (skipLazy rest)
    | '?' :: rest => repetitions fuel (.repeated p 0 (some 1)) (skipLazy rest)
    | '\x7b' :: rest => do
      let (least, most, rest) ← bounds? rest
      repetitions fuel (.repeated p least most) (skipLazy rest)
    | _ => some (p, cs)

/-- Applies the letters of a flag group; after a dash they are switched off. -/
def setFlags (on : Bool) (flags : Flags) : List Char → Option Flags
  | [] => some flags
  | 'i' :: rest => setFlags on { flags with fold := on } rest
  | 's' :: rest => setFlags on { flags with dotAll := on } rest
  | '-' :: rest => if on && !rest.isEmpty then setFlags false flags rest else none
  | c :: rest => if ['m', 'U', 'u', 'x', 'R'].contains c then setFlags on flags rest else none

/-- What stands after an opening parenthesis. -/
inductive GroupHead where
  /-- a group, with the flags inside it -/
  | group (flags : Flags) (rest : List Char)
  /-- flags for what follows -/
  | flags (flags : Flags) (rest : List Char)

/-- Reads the name of a group. -/
def groupName? (flags : Flags) (cs : List Char) : Option GroupHead :=
  let name := cs.takeWhile (· ≠ '>')
  match cs.dropWhile (· ≠ '>') with
  | _ :: rest =>
    let startsWell := name.head?.any fun c => Text.isWordChar c && !c.isDigit
    if startsWell && name.all fun c => Text.isWordChar c || ['.', '[', ']'].contains c then
      some (.group flags rest)
    else none
  | [] => none

def groupHead? (flags : Flags) : List Char → Option GroupHead
  | '?' :: ':' :: rest => some (.group flags rest)
  | '?' :: 'P' :: '<' :: rest => groupName? flags rest
  | '?' :: '<' :: rest =>
    match rest with
    | '=' :: _ => none
    | '!' :: _ => none
    | _ => groupName? flags rest
  | '?' :: rest =>
    let letters := rest.takeWhile fun c => c ≠ ')' ∧ c ≠ ':'
    match rest.dropWhile fun c => c ≠ ')' ∧ c ≠ ':' with
    | ')' :: after =>
      if letters.isEmpty then none
      else (setFlags true flags letters).map (.flags · after)
    | ':' :: after => (setFlags true flags letters).map (.group · after)
    | _ => none
  | rest => some (.group flags rest)

mutual

/-- Reads alternatives up to the end of their group. -/
def alternatives : Nat → Flags → List Char → Option (Pattern × List Char)
  | 0, _, _ => none
  | fuel + 1, flags, cs => do
    let (first, flags, rest) ← sequence fuel flags .empty cs
    match rest with
    | '|' :: rest =>
      let (others, rest) ← alternatives fuel flags rest
      return (.alt first others, rest)
    | _ => return (first, rest)

/-- Reads one alternative, and the flags that hold at its end. -/
def sequence : Nat → Flags → Pattern → List Char → Option (Pattern × Flags × List Char)
  | 0, _, _, _ => none
  | fuel + 1, flags, done, cs =>
    let continueWith (p : Pattern) (rest : List Char) := do
      let (p, rest) ← repetitions (rest.length + 1) p rest
      sequence fuel flags (.seq done p) rest
    match cs with
    | [] => some (done, flags, [])
    | '|' :: _ => some (done, flags, cs)
    | ')' :: _ => some (done, flags, cs)
    | '(' :: rest => do
      match ← groupHead? flags rest with
      | .flags flags rest => sequence fuel flags done rest
      | .group inner rest =>
        let (p, rest) ← alternatives fuel inner rest
        match rest with
        | ')' :: rest => continueWith p rest
        | _ => none
    | '[' :: rest => do
      let (p, rest) ← charClass? flags rest
      continueWith p rest
    | '.' :: rest => continueWith (anyChar flags) rest
    | '^' :: rest => continueWith .start rest
    | '$' :: rest => continueWith .finish rest
    | '\\' :: rest => do
      let (found, rest) ← escape? rest
      match found with
      | .literal c => continueWith (literal flags c) rest
      | .item i => continueWith (.char { items := [i], fold := flags.fold }) rest
      | .assertion p => continueWith p rest
    | c :: rest =>
      if ['*', '+', '?', '\x7b'].contains c then none else continueWith (literal flags c) rest

end

/-- The pattern a text writes. -/
def parse? (s : String) : Option Pattern :=
  match alternatives (2 * s.toList.length + 2) {} s.toList with
  | some (p, []) => some p
  | _ => none

end HookLint.Hook.Pattern

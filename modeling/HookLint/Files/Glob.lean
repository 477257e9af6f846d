/-
Globs: patterns for paths.

A glob is matched against the bytes of a path.  A question mark stands for one byte
and a star for any number of bytes, but neither for a slash; a bracket stands for a
byte of a set; braces hold alternatives.  Two stars that fill a place between slashes
stand for any number of directories.

The meaning of a token is given by what of a text may be left after it.
-/

namespace HookLint.Files

/-- A piece of a glob. -/
inductive GlobToken where
  | byte (b : UInt8)
  /-- one byte that is no slash -/
  | any
  /-- bytes that are no slashes -/
  | star
  /-- two stars and a slash at the start: directories, or nothing -/
  | leadingDirectories
  /-- a slash and two stars at the end: something inside a directory -/
  | inside
  /-- two stars between slashes: a slash, with directories or without -/
  | directories
  /-- a byte of a set, or of none of its ranges -/
  | oneByte (negated : Bool) (ranges : List (UInt8 × UInt8))
  | oneOf (branches : List (List GlobToken))
  deriving Repr, Inhabited

abbrev Glob := List GlobToken

/-! ### Matching -/

/-- The code of a slash. -/
def slash : UInt8 := 47

/-- The ends of a text: itself, and what follows each of its bytes. -/
def tails : List UInt8 → List (List UInt8)
  | [] => [[]]
  | b :: rest => (b :: rest) :: tails rest

/-- What follows each slash. -/
def afterSlashes : List UInt8 → List (List UInt8)
  | [] => []
  | b :: rest => if b = slash then rest :: afterSlashes rest else afterSlashes rest

/-- What is left after some bytes that are no slashes. -/
def afterPlain : List UInt8 → List (List UInt8)
  | [] => [[]]
  | b :: rest => (b :: rest) :: if b = slash then [] else afterPlain rest

/-- Ends of one text, each once. -/
def distinctEnds (ends : List (List UInt8)) : List (List UInt8) :=
  ends.foldl (fun seen e => if seen.any (·.length = e.length) then seen else seen ++ [e]) []

mutual

/-- The token matches nothing but the empty text: alternatives without content. -/
def GlobToken.isVoid : GlobToken → Bool
  | .oneOf branches => allVoid branches
  | _ => false

def isVoidSequence : Glob → Bool
  | [] => true
  | t :: ts => t.isVoid && isVoidSequence ts

def allVoid : List Glob → Bool
  | [] => true
  | g :: gs => isVoidSequence g && allVoid gs

end

mutual

/-- What may be left of a text after a token. -/
def GlobToken.rests (t : GlobToken) (s : List UInt8) : List (List UInt8) :=
  match t with
  | .byte b => if s.head? = some b then [s.drop 1] else []
  | .any => if s.head?.any (· ≠ slash) then [s.drop 1] else []
  | .star => afterPlain s
  | .leadingDirectories => s :: afterSlashes s
  | .inside => if s.head? = some slash then tails (s.drop 1) else []
  | .directories => if s.head? = some slash then s.drop 1 :: afterSlashes (s.drop 1) else []
  | .oneByte negated ranges =>
    if s.head?.any fun b => (ranges.any fun (lo, hi) => lo ≤ b && b ≤ hi) != negated then
      [s.drop 1]
    else []
  | .oneOf branches => if allVoid branches then [s] else branchRests branches s

/-- What may be left of some texts after a sequence of tokens. -/
def sequenceRests (g : Glob) (ss : List (List UInt8)) : List (List UInt8) :=
  match g with
  | [] => ss
  | t :: ts => sequenceRests ts (distinctEnds (ss.flatMap fun s => t.rests s))

/-- What may be left of a text after one of several sequences; those without content do not
count. -/
def branchRests (branches : List Glob) (s : List UInt8) : List (List UInt8) :=
  match branches with
  | [] => []
  | g :: gs => (if isVoidSequence g then [] else sequenceRests g [s]) ++ branchRests gs s

end

namespace Glob

/-- Two stars alone match everything. -/
def isEverything : Glob → Bool
  | [.leadingDirectories] => true
  | _ => false

/-- The glob matches the whole path. -/
def accepts (g : Glob) (path : String) : Bool :=
  isEverything g || (sequenceRests g [path.toUTF8.data.toList]).any (·.isEmpty)

/-! ### Reading -/

/-- The tokens of a character. -/
def ofChar (c : Char) : List GlobToken := (String.ofList [c]).toUTF8.data.toList.map .byte

/-- The ranges of bytes that a range of characters stands for: it runs from the last byte of
the one to the first byte of the other. -/
def byteRanges (first last : Char) : List (UInt8 × UInt8) :=
  let bytes (c : Char) : List UInt8 := (String.ofList [c]).toUTF8.data.toList
  let single (b : UInt8) : UInt8 × UInt8 := (b, b)
  if first = last then (bytes first).map single
  else
    (bytes first).dropLast.map single ++
      [((bytes first).getLast?.getD 0, (bytes last).head?.getD 0)] ++
      ((bytes last).drop 1).map single

/-- What reading a bracket finds. -/
inductive Bracket where
  | closed (ranges : List (Char × Char)) (rest : List Char)
  | unclosed
  /-- a range ends before it starts -/
  | reversed

/-- Reads the ranges of a bracket; the last one may be waiting for its end. -/
def bracketRanges (first waiting : Bool) (ranges : List (Char × Char)) : List Char → Bracket
  | [] => .unclosed
  | c :: rest =>
    if c = ']' ∧ first = false then
      .closed (if waiting then ranges ++ [('-', '-')] else ranges) rest
    else if c = '-' ∧ first = false ∧ waiting = false then bracketRanges false true ranges rest
    else if waiting then
      match ranges.getLast? with
      | some (lo, _) =>
        if c < lo then .reversed
        else bracketRanges false false (ranges.dropLast ++ [(lo, c)]) rest
      | none => .reversed
    else bracketRanges false false (ranges ++ [(c, c)]) rest

/-- Reads a bracket after its opening sign. -/
def bracket (cs : List Char) : Bool × Bracket :=
  match cs with
  | '!' :: rest => (true, bracketRanges true false [] rest)
  | '^' :: rest => (true, bracketRanges true false [] rest)
  | _ => (false, bracketRanges true false [] cs)

/-- Alternatives that are being read. -/
structure Frame where
  /-- the tokens before the alternatives, the last one first -/
  outer : List GlobToken
  /-- the finished alternatives -/
  branches : List Glob

/-- A glob that is being read. -/
structure Reading where
  /-- the open alternatives, the innermost first -/
  frames : List Frame := []
  /-- the tokens read, the last one first -/
  tokens : List GlobToken := []
  /-- the character before -/
  before : Option Char := none
  /-- a bracket without end was met: brackets stand for themselves -/
  plainBrackets : Bool := false

namespace Reading

def push (r : Reading) (new : List GlobToken) (before : Char) : Reading :=
  { r with tokens := new.reverse ++ r.tokens, before := some before }

/-- Two stars that stand for no directories. -/
def pushStars (r : Reading) : Reading := r.push [.star, .star] '*'

/-- Puts a token for directories in place of the slash before two stars. -/
def replaceSlash (r : Reading) (t : GlobToken) (before : Char) : Reading :=
  match r.tokens with
  | .leadingDirectories :: _ | .inside :: _ => { r with before := some before }
  | _ :: tokens => { r with tokens := t :: tokens, before := some before }
  | [] => r.push [t] before

/-- Takes account of two stars, given what follows them. -/
def doubleStar (r : Reading) (cs : List Char) : Reading × List Char :=
  let nested := !r.frames.isEmpty
  if r.tokens.isEmpty then
    match cs with
    | [] => (r.push [.leadingDirectories] '*', [])
    | '/' :: rest => (r.push [.leadingDirectories] '/', rest)
    | _ => (r.pushStars, cs)
  else if r.before ≠ some '/' ∧ !(nested && (r.before = some ',' || r.before = some '\x7b')) then
    (r.pushStars, cs)
  else match cs with
    | [] => (r.replaceSlash .inside '*', [])
    | '/' :: rest => (r.replaceSlash .directories '/', rest)
    | c :: _ =>
      if nested && (c = ',' || c = '\x7d') then (r.replaceSlash .inside '*', cs)
      else (r.pushStars, cs)

/-- Opens alternatives. -/
def openBrace (r : Reading) : Reading :=
  { r with frames := ⟨r.tokens, []⟩ :: r.frames, tokens := [], before := some '\x7b' }

/-- Closes alternatives, if any are open. -/
def closeBrace? (r : Reading) : Option Reading :=
  match r.frames with
  | [] => none
  | frame :: outer => some { r with
      frames := outer
      tokens := .oneOf (frame.branches ++ [r.tokens.reverse]) :: frame.outer
      before := some '\x7d' }

/-- A comma divides alternatives, or stands for itself. -/
def comma (r : Reading) : Reading :=
  match r.frames with
  | [] => r.push (ofChar ',') ','
  | frame :: outer => { r with
      frames := { frame with branches := frame.branches ++ [r.tokens.reverse] } :: outer
      tokens := [], before := some ',' }

end Reading

/-- Reads what is left of a glob.  When `lenient`, a bracket without end stands for itself. -/
def readFrom (lenient : Bool) : Nat → Reading → List Char → Option Glob
  | 0, _, _ => none
  | _ + 1, r, [] => if r.frames.isEmpty then some r.tokens.reverse else none
  | fuel + 1, r, c :: rest =>
    match c with
    | '?' => readFrom lenient fuel (r.push [.any] c) rest
    | '*' =>
      match rest with
      | '*' :: rest =>
        let (r, rest) := r.doubleStar rest
        readFrom lenient fuel r rest
      | _ => readFrom lenient fuel (r.push [.star] c) rest
    | '[' =>
      if r.plainBrackets then readFrom lenient fuel (r.push (ofChar c) c) rest
      else match bracket rest with
        | (negated, .closed ranges rest) =>
          let ranges := ranges.flatMap fun (first, last) => byteRanges first last
          readFrom lenient fuel (r.push [.oneByte negated ranges] ']') rest
        | (_, .unclosed) =>
          if lenient then
            readFrom lenient fuel { r.push (ofChar c) c with plainBrackets := true } rest
          else none
        | (_, .reversed) => none
    | '\x7b' => readFrom lenient fuel r.openBrace rest
    | '\x7d' => do readFrom lenient fuel (← r.closeBrace?) rest
    | ',' => readFrom lenient fuel r.comma rest
    | '\\' =>
      match rest with
      | [] => none
      | d :: rest => readFrom lenient fuel (r.push (ofChar d) d) rest
    | _ => readFrom lenient fuel (r.push (ofChar c) c) rest

/-- Reads a glob. -/
def parse? (lenient : Bool) (s : String) : Option Glob :=
  readFrom lenient (s.toList.length + 1) {} s.toList

end Glob

end HookLint.Files

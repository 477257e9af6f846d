/-
Patterns for hook names.

A pattern is a regular expression over characters.  Its meaning is given by the
positions of a text it can lead to: `reach` maps the set of positions a match may
have got to before the pattern to the set it may have got to after it.  A pattern
occurs in a text when it leads anywhere from anywhere.
-/
import HookLint.Text.Blank
import HookLint.Text.Case
import HookLint.Text.Word

namespace HookLint.Hook

/-- A member of a character class. -/
inductive ClassItem where
  | range (first last : Char)
  | digit (positive : Bool)
  | word (positive : Bool)
  | space (positive : Bool)
  deriving Repr

def ClassItem.contains : ClassItem → Char → Bool
  | range first last, c => first ≤ c && c ≤ last
  | digit positive, c => Text.isDecimalDigit c == positive
  | word positive, c => Text.isWordChar c == positive
  | space positive, c => Text.isBlank c == positive

/-- A set of characters. -/
structure CharClass where
  items : List ClassItem
  negated : Bool := false
  /-- letters stand for themselves in either case -/
  fold : Bool := false
  deriving Repr

/-- The characters that differ from `c` in case only. -/
def caseVariants (c : Char) : List Char :=
  let small := Text.lowerChar c
  small :: Text.capitalsOf small

def CharClass.contains (k : CharClass) (c : Char) : Bool :=
  let candidates := if k.fold then c :: caseVariants c else [c]
  (candidates.any fun d => k.items.any (·.contains d)) != k.negated

/-- A regular expression. -/
inductive Pattern where
  | empty
  | char (k : CharClass)
  /-- the start of the text -/
  | start
  /-- the end of the text -/
  | finish
  /-- between a word character and another, or not -/
  | wordEdge (positive : Bool)
  | seq (a b : Pattern)
  | alt (a b : Pattern)
  /-- at least `least` times and, if given, at most `most` times -/
  | repeated (p : Pattern) (least : Nat) (most : Option Nat)
  deriving Repr

namespace Pattern

/-- A set of positions: an ascending list. -/
abbrev Positions := List Nat

/-- Puts a position into a set. -/
def insertPosition (i : Nat) : Positions → Positions
  | [] => [i]
  | j :: js => if i < j then i :: j :: js else if i = j then j :: js else j :: insertPosition i js

def union (a b : Positions) : Positions := a.foldl (fun s i => insertPosition i s) b

/-- The positions reached by exactly `n` steps. -/
def iterate (step : Positions → Positions) : Nat → Positions → Positions
  | 0, s => s
  | n + 1, s => iterate step n (step s)

/-- The positions reached by at most `n` steps. -/
def within (step : Positions → Positions) : Nat → Positions → Positions
  | 0, s => s
  | n + 1, s => union s (within step n (step s))

/-- There is a word character on exactly one side of position `i`. -/
def atWordEdge (text : Array Char) (i : Nat) : Bool :=
  let before := i != 0 && (text[i - 1]?).any Text.isWordChar
  let after := (text[i]?).any Text.isWordChar
  before != after

/-- Where a match may be after the pattern, given where it may be before. -/
def reach (text : Array Char) : Pattern → Positions → Positions
  | empty, s => s
  | char k, s => s.filterMap fun i => if (text[i]?).any k.contains then some (i + 1) else none
  | start, s => s.filter (· == 0)
  | finish, s => s.filter (· == text.size)
  | wordEdge positive, s => s.filter fun i => atWordEdge text i == positive
  | seq a b, s => reach text b (reach text a s)
  | alt a b, s => union (reach text a s) (reach text b s)
  | repeated p least most, s =>
    let base := iterate (reach text p) least s
    match most with
    | none => within (reach text p) (text.size + 1) base
    | some m => within (reach text p) (m - least) base

/-- The pattern matches somewhere in the text. -/
def occursIn (p : Pattern) (text : String) : Bool :=
  let cs := text.toList.toArray
  !(reach cs p (List.range (cs.size + 1))).isEmpty

end Pattern

end HookLint.Hook

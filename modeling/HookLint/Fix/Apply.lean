/-
Applying replacements to a text.

Replacements are taken from the end of the text to its start, so that those already
made do not move the others.  One that overlaps a replacement already made is
skipped.  A replacement that is no piece of the text is a fault, whether it would
have been skipped or not.
-/
import HookLint.Diagnostic.Basic
import HookLint.Text.Slice

namespace HookLint.Fix

/-- What can be wrong with a replacement. -/
inductive Misplaced where
  /-- it runs backwards or ends after the text -/
  | outside (start stop length : Nat)
  /-- it starts or ends inside a character -/
  | splits (start stop : Nat)
  deriving DecidableEq, Repr

def Misplaced.message : Misplaced → String
  | outside start stop length => s!"Replacement {start}..{stop} is outside the {length}-byte source"
  | splits start stop => s!"Replacement {start}..{stop} does not fall on character boundaries"

/-- A text after replacements. -/
structure Applied where
  text : String
  applied : Nat
  /-- those that overlapped one that was made -/
  skipped : Nat
  deriving DecidableEq, Repr

/-- The place of a replacement in a text, if it is a piece of it. -/
def checkPlace (source : String) (r : Replacement) : Except Misplaced Unit :=
  if r.span.stop < r.span.start || Text.byteLength source < r.span.stop then
    .error (.outside r.span.start r.span.stop (Text.byteLength source))
  else if !Text.isBoundary source r.span.start || !Text.isBoundary source r.span.stop then
    .error (.splits r.span.start r.span.stop)
  else .ok ()

/-- `a` is taken before `b`: it starts later, or as late and does not end before. -/
def isTakenFirst (a b : Replacement) : Bool :=
  if a.span.start = b.span.start then b.span.stop ≤ a.span.stop else b.span.start ≤ a.span.start

/-- The source up to an offset is untouched, and what follows it is done. -/
structure Progress where
  /-- where the untouched part ends -/
  floor : Nat
  /-- the new text after it -/
  done : String
  applied : Nat
  skipped : Nat

namespace Progress

/-- Nothing has been replaced. -/
def start (source : String) : Progress :=
  { floor := Text.byteLength source, done := "", applied := 0, skipped := 0 }

/-- Makes a replacement unless it reaches into what is done. -/
def step (source : String) (p : Progress) (r : Replacement) : Except Misplaced Progress := do
  checkPlace source r
  if p.floor < r.span.stop then return { p with skipped := p.skipped + 1 }
  else
    let between := (Text.slice? source r.span.stop p.floor).getD ""
    return {
      floor := r.span.start, done := r.text ++ between ++ p.done
      applied := p.applied + 1, skipped := p.skipped }

/-- The whole text. -/
def finish (source : String) (p : Progress) : Applied :=
  { text := (Text.slice? source 0 p.floor).getD "" ++ p.done
    applied := p.applied, skipped := p.skipped }

end Progress

/-- Applies replacements to a text. -/
def apply (source : String) (replacements : List Replacement) : Except Misplaced Applied := do
  let last ← (replacements.mergeSort isTakenFirst).foldlM (Progress.step source)
    (Progress.start source)
  return last.finish source

end HookLint.Fix

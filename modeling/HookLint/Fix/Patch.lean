/-
The difference of two texts as a patch.

A patch has one hunk, from the first line that differs to the last, with up to three
lines of context on either side.
-/
import HookLint.Text.Blank

namespace HookLint.Fix

/-- How many lines of context a hunk has on either side. -/
def contextLines : Nat := 3

/-- How many items two lists have in common at the front. -/
def commonLength {α : Type} [DecidableEq α] : List α → List α → Nat
  | a :: as, b :: bs => if a = b then commonLength as bs + 1 else 0
  | _, _ => 0

/-- A change of lines, with the unchanged lines around it. -/
structure Hunk where
  /-- how many lines stand before the hunk -/
  skipped : Nat
  before : List String
  removed : List String
  added : List String
  after : List String
  deriving DecidableEq, Repr

namespace Hunk

/-- The change from one list of lines to another. -/
def between (old new : List String) : Hunk :=
  let same := commonLength old new
  let room := min old.length new.length - same
  let tail := commonLength (old.reverse.take room) (new.reverse.take room)
  let skipped := same - contextLines
  { skipped
    before := (old.take same).drop skipped
    removed := (old.take (old.length - tail)).drop same
    added := (new.take (new.length - tail)).drop same
    after := (old.drop (old.length - tail)).take contextLines }

def oldCount (h : Hunk) : Nat := h.before.length + h.removed.length + h.after.length

def newCount (h : Hunk) : Nat := h.before.length + h.added.length + h.after.length

/-- The line that says where the hunk stands in both texts. -/
def header (h : Hunk) : String :=
  let start := h.skipped + 1
  let old := h.oldCount
  let new := h.newCount
  s!"@@ -{start},{old} +{start},{new} @@"

/-- The lines of the hunk, each with its mark. -/
def body (h : Hunk) : List String :=
  h.before.map (" " ++ ·) ++ h.removed.map ("-" ++ ·) ++ h.added.map ("+" ++ ·) ++
    h.after.map (" " ++ ·)

end Hunk

/-- The patch that turns one text into another; empty when they are equal. -/
def patch (path before fixed : String) : String :=
  if before = fixed then ""
  else
    let hunk := Hunk.between (Text.lines before) (Text.lines fixed)
    Text.join "\n" (["--- a/" ++ path, "+++ b/" ++ path, hunk.header] ++ hunk.body) ++ "\n"

end HookLint.Fix

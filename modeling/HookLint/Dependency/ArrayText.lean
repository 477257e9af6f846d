/-
The text of an updated dependency array.

The updated array holds the kept entries as they were written, then the added
ones.  An array written on one line stays on one line.  An array with one entry a
line is edited line by line: comments and kept entries stay where they are, dropped
entries lose their line, added entries follow the last kept one at the indentation of
the elements, and the comma after the last entry stays or stays away.  Any other
array over several lines is laid out anew with one entry a line.
-/
import HookLint.Text.Blank
import HookLint.Text.Slice

namespace HookLint.Dependency

/-- A range of bytes of an array's text. -/
structure ByteRange where
  start : Nat
  stop : Nat
  deriving DecidableEq, Repr

namespace ArrayText

/-- The entries of the updated array; a range that is no piece of the text is passed
over. -/
def entries (array : String) (declared : List ByteRange) (kept : List Nat)
    (added : List String) : List String :=
  (kept.filterMap fun i => (declared[i]?).bind fun r => Text.slice? array r.start r.stop) ++
    added

/-! ### Line by line -/

/-- A line of a text and the offset it starts at. -/
structure PlacedLine where
  start : Nat
  text : String

def PlacedLine.stop (l : PlacedLine) : Nat := l.start + Text.byteLength l.text

/-- The pieces between line feeds, with their offsets. -/
def place (offset : Nat) : List String → List PlacedLine
  | [] => []
  | l :: ls => ⟨offset, l⟩ :: place (offset + Text.byteLength l + 1) ls

/-- The lines of a text, with their offsets. -/
def placedLines (s : String) : List PlacedLine := place 0 (Text.segments s)

/-- The line a range lies on. -/
def lineOf? (lines : List PlacedLine) (r : ByteRange) : Option Nat :=
  lines.findIdx? fun l => l.start ≤ r.start && r.stop ≤ l.stop

/-- The line of every entry, when each has one of its own that is neither the first nor the
last. -/
def entryLines? (lines : List PlacedLine) (declared : List ByteRange) : Option (List Nat) :=
  declared.foldlM (fun taken r => do
    let i ← lineOf? lines r
    if i = 0 ∨ i + 1 = lines.length ∨ i ∈ taken then none else some (taken ++ [i])) []

/-- An array with one entry a line, between a line with the opening bracket and one that
starts with the closing bracket. -/
structure Layout where
  /-- the lines between the brackets -/
  interior : List PlacedLine
  /-- the line of the closing bracket -/
  closing : String
  /-- the line of every entry, counted from the line of the opening bracket -/
  entryLines : List Nat

/-- Reads the layout of an array. -/
def layout? (array : String) (declared : List ByteRange) : Option Layout :=
  let lines := placedLines array
  match lines, lines.getLast? with
  | first :: rest, some last =>
    if rest.isEmpty || Text.trim first.text != "[" ||
        !Text.startsWith (Text.trim last.text) "]" then none
    else (entryLines? lines declared).map fun entryLines =>
      { interior := rest.dropLast, closing := last.text, entryLines }
  | _, _ => none

/-- A line of the updated array. -/
structure Line where
  /-- the text up to the end of the entry, or the whole line -/
  head : String
  /-- what follows the entry and its comma -/
  tail : String
  isEntry : Bool

/-- The line of an added entry. -/
def Line.added (indent entry : String) : Line :=
  { head := indent ++ entry, tail := "", isEntry := true }

/-- The text after an entry on its line, without the comma. -/
def tailOf (after : String) : String :=
  let rest := Text.trimStart after
  (Text.afterPrefix? rest ",").getD rest

/-- What an interior line becomes: nothing when its entry is dropped. -/
def keepLine (layout : Layout) (declared : List ByteRange) (kept : List Nat) (number : Nat)
    (l : PlacedLine) : Option Line :=
  match layout.entryLines.findIdx? (· == number) with
  | none => some { head := l.text, tail := "", isEntry := false }
  | some entry =>
    if kept.contains entry then
      (declared[entry]?).map fun r =>
        let cut := r.stop - l.start
        { head := (Text.slice? l.text 0 cut).getD ""
          tail := tailOf ((Text.sliceFrom? l.text cut).getD "")
          isEntry := true }
    else none

/-- The interior lines that stay. -/
def keptLines (layout : Layout) (declared : List ByteRange) (kept : List Nat) : List Line :=
  (layout.interior.zipIdx 1).filterMap fun (l, number) => keepLine layout declared kept number l

/-- The indentation of the elements: that of the first line that is not blank, or two blanks
more than the closing bracket's. -/
def elementIndent (layout : Layout) : String :=
  match layout.interior.find? fun l => !Text.isBlankText l.text with
  | some l => Text.leadingBlank l.text
  | none => Text.leadingBlank layout.closing ++ "  "

/-- Puts lines after the last entry, or at the end when there is no entry. -/
def insertLines (new lines : List Line) : List Line :=
  let after := (lines.reverse.takeWhile (!·.isEntry)).reverse
  let before := (lines.reverse.dropWhile (!·.isEntry)).reverse
  if before.isEmpty then lines ++ new else before ++ new ++ after

/-- A line as written: an entry has a comma if told so, and its tail after a blank. -/
def Line.render (l : Line) (comma : Bool) : String :=
  if l.isEntry then
    l.head ++ (if comma then "," else "") ++
      (if Text.isBlankText l.tail then "" else " " ++ Text.trimStart l.tail)
  else l.head

/-- The lines as written, each with its line feed; the last entry has a comma when
`trailing`. -/
def renderLines (trailing : Bool) : List Line → String
  | [] => ""
  | l :: ls =>
    l.render (trailing || ls.any (·.isEntry)) ++ "\n" ++ renderLines trailing ls

/-- The last declared entry is followed by a comma. -/
def hasTrailingComma (array : String) (declared : List ByteRange) : Bool :=
  declared.getLast?.any fun r =>
    Text.startsWith (Text.trimStart ((Text.sliceFrom? array r.stop).getD "")) ","

/-- The updated array, line by line. -/
def renderLayout (array : String) (layout : Layout) (declared : List ByteRange)
    (kept : List Nat) (added : List String) : String :=
  let new := added.map (Line.added (elementIndent layout))
  let lines := insertLines new (keptLines layout declared kept)
  if lines.all fun l => !l.isEntry && Text.isBlankText l.head then "[]"
  else "[\n" ++ renderLines (hasTrailingComma array declared) lines ++ layout.closing

/-- A kept entry ends on its line, between two characters. -/
def endsOnLine (array : String) (layout : Layout) (number : Nat) (r : ByteRange) : Bool :=
  Text.isBoundary array r.stop &&
    (layout.interior[number - 1]?).all fun l => l.start ≤ r.stop

/-- The ends at which a line-by-line update cuts can be cut at. -/
def cutsCleanly (array : String) (layout : Layout) (declared : List ByteRange)
    (kept : List Nat) : Bool :=
  declared.getLast?.all (fun r => Text.isBoundary array r.stop) &&
    ((declared.zip layout.entryLines).zipIdx.all fun ((r, number), entry) =>
      !kept.contains entry || endsOnLine array layout number r)

/-! ### Anew -/

/-- The indentation of the closing bracket, when it starts the last line. -/
def closeIndent (array : String) : String :=
  match (Text.lines array).getLast? with
  | some l => if Text.startsWith (Text.trimStart l) "]" then Text.leadingBlank l else ""
  | none => ""

/-- The indentation of the elements of an array that is laid out anew: that of the first line
with something on it but the closing bracket, or two blanks more than the bracket's. -/
def newIndent (array : String) : String :=
  match ((Text.lines array).drop 1).find? fun l =>
    !Text.isBlankText l && !Text.startsWith (Text.trim l) "]" with
  | some l => Text.leadingBlank l
  | none => closeIndent array ++ "  "

/-- One entry a line, with the indentation and the trailing comma of the array. -/
def rebuild (array : String) (entries : List String) : String :=
  let body := Text.trimEnd array
  let trailing := Text.endsWith body "]" &&
    Text.endsWith (Text.trimEnd (String.ofList body.toList.dropLast)) ","
  "[\n" ++ renderLines trailing (entries.map (Line.added (newIndent array))) ++
    closeIndent array ++ "]"

/-- The text of the updated array; none when a range it has to cut at splits a
character or runs backwards over a line. -/
def render? (array : String) (declared : List ByteRange) (kept : List Nat)
    (added : List String) : Option String :=
  let entries := entries array declared kept added
  if !array.toList.contains '\n' then
    some ("[" ++ Text.join ", " entries ++ "]")
  else match layout? array declared with
    | some layout =>
      if cutsCleanly array layout declared kept then
        some (renderLayout array layout declared kept added)
      else none
    | none => if entries.isEmpty then some "[]" else some (rebuild array entries)

/-- A summary of the update. -/
def describe (entries : List String) : String :=
  "Update the dependencies array to be: [" ++ Text.join ", " entries ++ "]"

end ArrayText

end HookLint.Dependency

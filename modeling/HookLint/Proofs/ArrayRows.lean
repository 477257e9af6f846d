/-
The lines of an array.

An update edits an array line by line when every entry has a line of its own between the
lines of the brackets.  It learns this by comparing offsets.  Here the same lines are
found without offsets: the gaps around the elements are cut at their line feeds, and a line
is either a piece of a gap or the end of a gap, an element and the start of the next gap.
`laid_of_layout?` says that the two agree, and `keptLines_eq` that the lines an update keeps
are these rows, less the rows whose entry is dropped.
-/
import HookLint.Proofs.ArrayLiteral
import HookLint.Proofs.Lines

namespace HookLint.Dependency.ArrayText

open HookLint.Text

/-! ### Rows -/

/-- What a line between the lines of the brackets holds: no entry, or an entry with its
number and the text before and after it. -/
inductive Row where
  | plain (text : List Char)
  | entry (number : Nat) (lead element rest : List Char)
  deriving DecidableEq, Repr

namespace Row

def text : Row → List Char
  | plain t => t
  | entry _ lead element rest => lead ++ (element ++ rest)

/-- The row stays when the entries with these numbers are kept. -/
def stays (kept : List Nat) : Row → Bool
  | plain _ => true
  | entry number _ _ _ => kept.contains number

def isEntry : Row → Bool
  | plain _ => false
  | entry .. => true

def element? : Row → Option (List Char)
  | plain _ => none
  | entry _ _ element _ => some element

/-- The row as a line of an update. -/
def line : Row → Line
  | plain t => { head := String.ofList t, tail := "", isEntry := false }
  | entry _ lead element rest =>
    { head := String.ofList (lead ++ element)
      tail := tailOf (String.ofList rest)
      isEntry := true }

@[simp] theorem text_plain (t : List Char) : (plain t).text = t := rfl

@[simp] theorem text_entry (number : Nat) (lead element rest : List Char) :
    (entry number lead element rest).text = lead ++ (element ++ rest) := rfl

@[simp] theorem isEntry_line (r : Row) : r.line.isEntry = r.isEntry := by
  cases r <;> rfl

end Row

/-- The rows of elements with their gaps, given the lines of the gap before the first, of
which the last holds the element. -/
def rowsFrom : Nat → List (List Char) → List (List Char × List Char) → List Row
  | _, ls, [] => ls.dropLast.map .plain
  | number, ls, (element, gap) :: parts =>
    ls.dropLast.map .plain ++
      .entry number (ls.getLastD []) element ((cutAt '\n' gap).headD []) ::
        rowsFrom (number + 1) (cutAt '\n' gap).tail parts

/-- What stands before the closing bracket on its line. -/
def closingFrom : List (List Char) → List (List Char × List Char) → List Char
  | ls, [] => ls.getLastD []
  | _, (_, gap) :: parts => closingFrom (cutAt '\n' gap).tail parts

/-- The numbers of the lines of the elements, given that of the first. -/
def numbersFrom : Nat → List (List Char × List Char) → List Nat
  | _, [] => []
  | number, (_, gap) :: parts => number :: numbersFrom (number + gap.count '\n') parts

namespace Bracketed

/-- The lines between those of the brackets. -/
def rows (b : Bracketed) : List Row := rowsFrom 0 (cutAt '\n' b.opening).tail b.parts

/-- What stands before the closing bracket on its line. -/
def closing (b : Bracketed) : List Char := closingFrom (cutAt '\n' b.opening).tail b.parts

end Bracketed

/-- Every element is on one line, and a line feed follows it before the next one. -/
def Apart (parts : List (List Char × List Char)) : Prop :=
  ∀ p ∈ parts, '\n' ∉ p.1 ∧ '\n' ∈ p.2

/-- Cutting elements that stand apart gives their rows. -/
theorem cutAt_spread {parts : List (List Char × List Char)} (h : Apart parts) (number : Nat)
    (gap : List Char) :
    cutAt '\n' (gap ++ (spread parts ++ [']'])) =
      (rowsFrom number (cutAt '\n' gap) parts).map Row.text ++
        [closingFrom (cutAt '\n' gap) parts ++ [']']] := by
  induction parts generalizing number gap with
  | nil =>
      rw [spread, List.nil_append, cutAt_append_of_notMem gap (by decide), rowsFrom, closingFrom,
        List.map_map]
      simp [Function.comp_def, Row.text]
  | cons p parts ih =>
      obtain ⟨element, after⟩ := p
      obtain ⟨hel, hafter⟩ := h _ List.mem_cons_self
      obtain ⟨first, rest, hfirst, rfl, hcut⟩ := cutAt_of_mem hafter
      have hline : '\n' ∉ element ++ first := by
        rw [List.mem_append, not_or]
        exact ⟨hel, hfirst⟩
      have hsplit : gap ++ (spread ((element, first ++ '\n' :: rest) :: parts) ++ [']']) =
          (gap ++ (element ++ first)) ++ '\n' :: (rest ++ (spread parts ++ [']'])) := by
        simp [spread]
      rw [hsplit, cutAt_append_cons, cutAt_append_of_notMem gap hline,
        ih (fun p hp => h p (List.mem_cons_of_mem _ hp)) (number + 1) rest, rowsFrom, closingFrom,
        hcut]
      simp [Function.comp_def, Row.text]

/-! ### Line numbers -/

/-- The offsets of the elements find the lines of the elements. -/
theorem numbersFrom_of_lineOf? {parts : List (List Char × List Char)}
    (hel : ∀ p ∈ parts, IsElement p.1) (before after : List Char) {numbers : List Nat}
    (h : (rangesFrom (bytes before) parts).map (lineOf? (place 0
        ((cutAt '\n' (before ++ (spread parts ++ after))).map String.ofList))) =
      numbers.map some) :
    (∀ p ∈ parts, '\n' ∉ p.1) ∧ numbers = numbersFrom (before.count '\n') parts := by
  induction parts generalizing before numbers with
  | nil =>
      refine ⟨fun p hp => absurd hp List.not_mem_nil, ?_⟩
      exact List.map_eq_nil_iff.mp h.symm
  | cons p parts ih =>
      obtain ⟨element, gap⟩ := p
      cases numbers with
      | nil => simp [rangesFrom] at h
      | cons number numbers =>
          have hne := (hel _ List.mem_cons_self).ne_nil
          have hfound := lineOf?_place before (gap ++ (spread parts ++ after)) hne 0
          simp only [rangesFrom, List.map_cons, List.cons.injEq, spread, List.append_assoc] at h
          rw [Nat.zero_add] at hfound
          obtain ⟨hhead, htail⟩ := h
          rw [hfound] at hhead
          split at hhead
          · contradiction
          · rename_i hline
            have hcount : (before ++ (element ++ gap)).count '\n' =
                before.count '\n' + gap.count '\n' := by
              simp [List.count_eq_zero_of_not_mem hline]
            have hbytes : bytes before + bytes element + bytes gap =
                bytes (before ++ (element ++ gap)) := by
              simp [Nat.add_assoc]
            obtain ⟨hlines, hnumbers⟩ :=
              ih (fun p hp => hel p (List.mem_cons_of_mem _ hp)) (before ++ (element ++ gap))
                (by rw [← hbytes]; simpa using htail)
            rw [hcount] at hnumbers
            refine ⟨?_, by rw [numbersFrom, ← hnumbers, Option.some.inj hhead]⟩
            intro p hp
            rcases List.mem_cons.mp hp with rfl | hp
            · exact hline
            · exact hlines p hp

/-- What the lines of the entries satisfy. -/
theorem entryLines?_eq_some {lines : List PlacedLine} {declared : List ByteRange}
    {numbers : List Nat} (h : entryLines? lines declared = some numbers) :
    declared.map (lineOf? lines) = numbers.map some ∧ numbers.Nodup ∧
      ∀ i ∈ numbers, i ≠ 0 ∧ i + 1 ≠ lines.length := by
  suffices hfold : ∀ (declared : List ByteRange) (taken numbers : List Nat), taken.Nodup →
      (∀ i ∈ taken, i ≠ 0 ∧ i + 1 ≠ lines.length) →
      declared.foldlM (fun taken r => do
        let i ← lineOf? lines r
        if i = 0 ∨ i + 1 = lines.length ∨ i ∈ taken then none else some (taken ++ [i])) taken =
          some numbers →
      taken.map some ++ declared.map (lineOf? lines) = numbers.map some ∧ numbers.Nodup ∧
        ∀ i ∈ numbers, i ≠ 0 ∧ i + 1 ≠ lines.length by
    simpa using hfold declared [] numbers List.nodup_nil (by simp) h
  intro declared
  induction declared with
  | nil =>
      intro taken numbers hnodup hinner hfold
      obtain rfl : taken = numbers := by simpa using hfold
      exact ⟨by simp, hnodup, hinner⟩
  | cons r declared ih =>
      intro taken numbers hnodup hinner hfold
      rw [List.foldlM_cons, Option.bind_eq_bind, Option.bind_eq_some_iff] at hfold
      obtain ⟨taken', hstep, hfold⟩ := hfold
      rw [Option.bind_eq_bind, Option.bind_eq_some_iff] at hstep
      obtain ⟨i, hi, hstep⟩ := hstep
      split at hstep
      · contradiction
      · rename_i hnew
        rw [not_or, not_or] at hnew
        obtain rfl := Option.some.inj hstep
        obtain ⟨hmap, hrest⟩ := ih (taken ++ [i]) numbers
          (List.nodup_append.mpr ⟨hnodup, List.pairwise_singleton _ i, by
            rintro j hj k hk rfl
            exact hnew.2.2 (List.mem_singleton.mp hk ▸ hj)⟩)
          (by
            intro j hj
            rcases List.mem_append.mp hj with hj | hj
            · exact hinner j hj
            · rw [List.mem_singleton.mp hj]
              exact ⟨hnew.1, hnew.2.1⟩)
          hfold
        exact ⟨by simpa [hi] using hmap, hrest⟩

theorem le_of_mem_numbersFrom {parts : List (List Char × List Char)} {first i : Nat}
    (h : i ∈ numbersFrom first parts) : first ≤ i := by
  induction parts generalizing first with
  | nil => simp [numbersFrom] at h
  | cons p parts ih =>
      rcases List.mem_cons.mp h with rfl | h
      · exact Nat.le_refl _
      · exact Nat.le_trans (Nat.le_add_right _ _) (ih h)

/-- Lines of their own have a line feed between them. -/
theorem lineFeed_of_nodup {parts : List (List Char × List Char)}
    (hline : ∀ p ∈ parts, '\n' ∉ p.1) {first : Nat} (hnodup : (numbersFrom first parts).Nodup)
    (hlast : ∀ i ∈ numbersFrom first parts, i ≠ first + (spread parts).count '\n') :
    ∀ p ∈ parts, '\n' ∈ p.2 := by
  induction parts generalizing first with
  | nil => intro p hp; exact absurd hp List.not_mem_nil
  | cons p parts ih =>
      obtain ⟨element, gap⟩ := p
      have hcount : (spread ((element, gap) :: parts)).count '\n' =
          gap.count '\n' + (spread parts).count '\n' := by
        simp [spread, List.count_eq_zero_of_not_mem (hline _ List.mem_cons_self)]
      have hrest := ih
        (fun p hp => hline p (List.mem_cons_of_mem _ hp)) (List.nodup_cons.mp hnodup).2
        (fun i hi => by
          rw [Nat.add_assoc, ← hcount]
          exact hlast i (List.mem_cons_of_mem _ hi))
      have hgap : '\n' ∈ gap := by
        rw [← List.count_pos_iff]
        by_contra hzero
        have hzero' : gap.count '\n' = 0 := by omega
        cases parts with
        | nil =>
            refine hlast first List.mem_cons_self ?_
            rw [hcount, hzero']
            rfl
        | cons q parts =>
            refine (List.nodup_cons.mp hnodup).1 ?_
            rw [hzero', Nat.add_zero]
            exact List.mem_cons_self
      intro p hp
      rcases List.mem_cons.mp hp with rfl | hp
      · exact hgap
      · exact hrest p hp

/-! ### Reading the layout -/

theorem length_place (offset : Nat) (ls : List String) : (place offset ls).length = ls.length := by
  induction ls generalizing offset with
  | nil => rfl
  | cons l ls ih => simp [place, ih]

theorem place_concat (offset : Nat) (ls : List String) (l : String) :
    ∃ start, place offset (ls ++ [l]) = place offset ls ++ [⟨start, l⟩] := by
  induction ls generalizing offset with
  | nil => exact ⟨offset, rfl⟩
  | cons l' ls ih =>
      obtain ⟨start, hstart⟩ := ih (offset + byteLength l' + 1)
      exact ⟨start, by rw [List.cons_append, place, hstart]; rfl⟩

/-- A line that holds a bracket and is trimmed to it holds only blanks besides. -/
theorem isBlank_of_trim_eq {cs : List Char} (h : trim (String.ofList ('[' :: cs)) = "[") :
    ∀ c ∈ cs, isBlank c = true := by
  have hstart : trimStart (String.ofList ('[' :: cs)) = String.ofList ('[' :: cs) := by
    rw [trimStart, String.toList_ofList, List.dropWhile_cons_of_neg (by decide)]
  have hend : (('[' :: cs).reverse.dropWhile isBlank).reverse = ['['] := by
    rw [trim, hstart, trimEnd, String.toList_ofList] at h
    exact String.ofList_injective h
  have hsplit := List.takeWhile_append_dropWhile (p := isBlank) (l := ('[' :: cs).reverse)
  rw [List.reverse_eq_iff.mp hend] at hsplit
  have hcs := congrArg List.reverse hsplit
  simp only [List.reverse_append, List.reverse_reverse, List.reverse_singleton,
    List.singleton_append, List.cons.injEq, true_and] at hcs
  intro c hc
  rw [← hcs, List.mem_reverse] at hc
  exact List.mem_takeWhile_imp hc

theorem toList_text (b : Bracketed) :
    b.text.toList = '[' :: (b.opening ++ (spread b.parts ++ [']'])) := by
  rw [Bracketed.text, String.toList_ofList]

theorem ranges_eq (b : Bracketed) : b.ranges = rangesFrom (bytes ('[' :: b.opening)) b.parts := by
  rw [Bracketed.ranges, bytes_cons]
  rfl

theorem length_placedLines (s : String) : (placedLines s).length = s.toList.count '\n' + 1 := by
  rw [placedLines, length_place, segments, List.length_map, length_cutAt]

/-- The lines of an array whose elements stand apart. -/
theorem placedLines_text {b : Bracketed} (hapart : Apart b.parts) {first rest : List Char}
    (hfirst : '\n' ∉ first) (hopening : b.opening = first ++ '\n' :: rest) :
    placedLines b.text = ⟨0, String.ofList ('[' :: first)⟩ ::
      place (bytes first + 2)
        ((b.rows.map fun r => String.ofList r.text) ++ [String.ofList (b.closing ++ [']'])]) := by
  have hcut : (cutAt '\n' b.opening).tail = cutAt '\n' rest := by
    rw [hopening, cutAt_append_cons, cutAt_of_notMem hfirst]
    rfl
  have hhead : '\n' ∉ '[' :: first := by
    rw [List.mem_cons, not_or]
    exact ⟨by decide, hfirst⟩
  have hsplit : b.text.toList = ('[' :: first) ++ '\n' :: (rest ++ (spread b.parts ++ [']'])) := by
    rw [toList_text, hopening]
    simp
  have hbracket : ('[' : Char).utf8Size = 1 := rfl
  rw [placedLines, segments, hsplit, cutAt_append_cons, cutAt_of_notMem hhead,
    cutAt_spread hapart 0 rest, ← hcut]
  simp only [List.map_append, List.map_cons, List.map_nil, List.map_map, List.singleton_append,
    place, byteLength_ofList, bytes_cons, hbracket]
  congr 2
  omega

/-- The layout that an update reads is that of the rows. -/
structure Laid (b : Bracketed) (layout : Layout) (first rest : List Char) : Prop where
  opening : b.opening = first ++ '\n' :: rest
  oneLine : '\n' ∉ first
  isBlank : ∀ c ∈ first, isBlank c = true
  apart : Apart b.parts
  found : b.ranges.map (lineOf? (placedLines b.text)) = layout.entryLines.map some
  entryLines : layout.entryLines = numbersFrom (b.opening.count '\n') b.parts
  interior : layout.interior = place (bytes first + 2) (b.rows.map fun r => String.ofList r.text)
  closing : layout.closing = String.ofList (b.closing ++ [']'])

/-- What reading a layout checks and returns. -/
theorem layout?_eq_some {array : String} {declared : List ByteRange} {layout : Layout}
    (h : layout? array declared = some layout) :
    ∃ head tail last, placedLines array = head :: tail ∧ tail ≠ [] ∧
      tail.getLast? = some last ∧ trim head.text = "[" ∧
      entryLines? (placedLines array) declared = some layout.entryLines ∧
      layout.interior = tail.dropLast ∧ layout.closing = last.text := by
  unfold layout? at h
  dsimp only at h
  split at h
  · rename_i head tail last hlines hlast
    split at h
    · contradiction
    · rename_i hshape
      obtain ⟨numbers, hnumbers, rfl⟩ := Option.map_eq_some_iff.mp h
      simp only [Bool.or_eq_true, List.isEmpty_iff, bne_iff_ne, not_or, ne_eq, not_not] at hshape
      obtain ⟨⟨htail, htrim⟩, -⟩ := hshape
      obtain ⟨next, tail, rfl⟩ := List.exists_cons_of_ne_nil htail
      rw [hlines, List.getLast?_cons_cons] at hlast
      exact ⟨head, next :: tail, last, hlines, htail, hlast, htrim, hnumbers, rfl, rfl⟩
  · contradiction

theorem laid_of_layout? {b : Bracketed} {layout : Layout}
    (h : layout? b.text b.ranges = some layout) : ∃ first rest, Laid b layout first rest := by
  obtain ⟨head, tail, last, hlines, htail, hlast, htrim, hnumbers, hinterior, hclosing⟩ :=
    layout?_eq_some h
  obtain ⟨hfound, hnodup, hinner⟩ := entryLines?_eq_some hnumbers
  have hkeep := hfound
  have hlength : (placedLines b.text).length =
      b.opening.count '\n' + (spread b.parts).count '\n' + 1 := by
    rw [length_placedLines, toList_text]
    simp
  have hwhere : (∀ p ∈ b.parts, '\n' ∉ p.1) ∧
      layout.entryLines = numbersFrom (b.opening.count '\n') b.parts := by
    rw [placedLines, segments, toList_text, ← List.cons_append, ranges_eq] at hfound
    have := numbersFrom_of_lineOf? b.isElement _ _ hfound
    rwa [List.count_cons_of_ne (by decide)] at this
  obtain ⟨hline, hentries⟩ := hwhere
  rw [hentries] at hnodup hinner
  have hfeed := lineFeed_of_nodup hline hnodup (fun i hi hlasti => (hinner i hi).2 (by omega))
  have hopen : '\n' ∈ b.opening := by
    rw [← List.count_pos_iff]
    cases hparts : b.parts with
    | nil =>
        have hlen := hlength
        rw [hparts, hlines, List.length_cons] at hlen
        have : 0 < tail.length := List.length_pos_of_ne_nil htail
        simp [spread] at hlen
        omega
    | cons p parts =>
        have := (hinner _ (by rw [hparts]; exact List.mem_cons_self)).1
        omega
  obtain ⟨first, rest, hfirst, hopening, -⟩ := cutAt_of_mem hopen
  have hapart : Apart b.parts := fun p hp => ⟨hline p hp, hfeed p hp⟩
  have hplaced := placedLines_text hapart hfirst hopening
  obtain ⟨start, hconcat⟩ := place_concat (bytes first + 2)
    (b.rows.map fun r => String.ofList r.text) (String.ofList (b.closing ++ [']']))
  rw [hlines, hconcat, List.cons.injEq] at hplaced
  obtain ⟨rfl, rfl⟩ := hplaced
  refine ⟨first, rest, hopening, hfirst, isBlank_of_trim_eq htrim, hapart, hkeep, hentries, ?_, ?_⟩
  · rw [hinterior, List.dropLast_concat]
  · rw [hclosing]
    rw [List.getLast?_concat, Option.some.injEq] at hlast
    rw [← hlast]

/-! ### The lines that stay -/

section

variable (entryLines : List Nat) (declared : List ByteRange)

/-- The numbers of the lines and the offsets of the entries fit the rows, which start at a
line and an offset. -/
def Fits : Nat → Nat → List Row → Prop
  | _, _, [] => True
  | number, offset, .plain t :: rows =>
    number ∉ entryLines ∧ Fits (number + 1) (offset + bytes t + 1) rows
  | number, offset, .entry k lead element rest :: rows =>
    entryLines.findIdx? (· == number) = some k ∧
      declared[k]? =
        some ⟨offset + bytes lead, offset + bytes lead + bytes element⟩ ∧
      Fits (number + 1) (offset + bytes (lead ++ (element ++ rest)) + 1) rows

variable {entryLines declared}

theorem filterMap_keepLine {layout : Layout} (hlayout : layout.entryLines = entryLines)
    (kept : List Nat) {rows : List Row} {number offset : Nat}
    (h : Fits entryLines declared number offset rows) :
    ((place offset (rows.map fun r => String.ofList r.text)).zipIdx number).filterMap
        (fun (l, number) => keepLine layout declared kept number l) =
      (rows.filter (Row.stays kept)).map Row.line := by
  induction rows generalizing number offset with
  | nil => rfl
  | cons r rows ih =>
      cases r with
      | plain t =>
          obtain ⟨hnone, hrest⟩ := h
          have hkeep : keepLine layout declared kept number ⟨offset, String.ofList t⟩ =
              some (Row.line (.plain t)) := by
            have hidx : entryLines.findIdx? (· == number) = none := by
              rw [List.findIdx?_eq_none_iff]
              intro i hi
              simpa using fun heq : i = number => hnone (heq ▸ hi)
            rw [keepLine, hlayout, hidx]
            rfl
          simp only [List.map_cons, place, Row.text_plain, List.zipIdx_cons, byteLength_ofList,
            List.filterMap_cons, hkeep]
          rw [ih hrest]
          rfl
      | entry k lead element rest =>
          obtain ⟨hidx, hrange, hrest⟩ := h
          simp only [List.map_cons, place, Row.text_entry, List.zipIdx_cons, byteLength_ofList,
            List.filterMap_cons]
          by_cases hk : kept.contains k = true
          · have hkeep : keepLine layout declared kept number
                ⟨offset, String.ofList (lead ++ (element ++ rest))⟩ =
                  some (Row.line (.entry k lead element rest)) := by
              have hcut : offset + bytes lead + bytes element - offset =
                  bytes (lead ++ element) := by
                rw [bytes_append]
                omega
              have hline : String.ofList (lead ++ (element ++ rest)) =
                  String.ofList (lead ++ element) ++ String.ofList rest := by
                rw [← String.ofList_append, List.append_assoc]
              have hhead := slice?_append "" (String.ofList (lead ++ element)) (String.ofList rest)
              have htail := sliceFrom?_append (String.ofList (lead ++ element)) (String.ofList rest)
              simp only [byteLength_empty, byteLength_ofList, Nat.zero_add, String.empty_append]
                at hhead htail
              rw [keepLine, hlayout, hidx]
              simp only [hk, if_true, hrange, Option.map_some, hcut, hline, hhead, htail,
                Option.getD_some]
              rfl
            simp only [hkeep]
            rw [ih hrest, List.filter_cons_of_pos (by exact hk), List.map_cons]
          · have hkeep : keepLine layout declared kept number
                ⟨offset, String.ofList (lead ++ (element ++ rest))⟩ = none := by
              rw [keepLine, hlayout, hidx]
              simp only [hk, if_false, Bool.false_eq_true]
            simp only [hkeep]
            rw [ih hrest, List.filter_cons_of_neg (by exact hk)]

theorem rowsFrom_cons (k : Nat) (l : List Char) {ls : List (List Char)} (hls : ls ≠ [])
    (parts : List (List Char × List Char)) :
    rowsFrom k (l :: ls) parts = .plain l :: rowsFrom k ls parts := by
  obtain ⟨l', ls, rfl⟩ := List.exists_cons_of_ne_nil hls
  cases parts with
  | nil => simp [rowsFrom]
  | cons p parts => simp [rowsFrom]

variable (entryLines declared) in
/-- At a line and an offset, the numbers and the ranges that are left are those of the
elements that are left, the first of them after a gap. -/
structure Ahead (k : Nat) (gap : List Char) (parts : List (List Char × List Char))
    (number offset : Nat) : Prop where
  numbers : entryLines.drop k = numbersFrom (number + gap.count '\n') parts
  before : ∀ i ∈ entryLines.take k, i < number
  ranges : declared.drop k = rangesFrom (offset + bytes gap) parts

/-- One line further in the gap. -/
theorem Ahead.next {k number offset : Nat} {first rest : List Char}
    {parts : List (List Char × List Char)}
    (h : Ahead entryLines declared k (first ++ '\n' :: rest) parts number offset)
    (hfirst : '\n' ∉ first) :
    Ahead entryLines declared k rest parts (number + 1) (offset + bytes first + 1) where
  numbers := by
    rw [h.numbers]
    simp only [List.count_append, List.count_eq_zero_of_not_mem hfirst, List.count_cons_self]
    congr 1
    omega
  before i hi := Nat.lt_succ_of_lt (h.before i hi)
  ranges := by
    have hfeed : ('\n' : Char).utf8Size = 1 := rfl
    rw [h.ranges, bytes_append, bytes_cons, hfeed]
    congr 1
    omega

/-- The line of an element and the gap after it. -/
theorem Ahead.entry {k number offset : Nat} {gap element first rest : List Char}
    {parts : List (List Char × List Char)}
    (h : Ahead entryLines declared k gap ((element, first ++ '\n' :: rest) :: parts) number offset)
    (hgap : '\n' ∉ gap) (hfirst : '\n' ∉ first) :
    entryLines.findIdx? (· == number) = some k ∧
      declared[k]? = some ⟨offset + bytes gap, offset + bytes gap + bytes element⟩ ∧
      Ahead entryLines declared (k + 1) rest parts (number + 1)
        (offset + bytes (gap ++ (element ++ first)) + 1) := by
  have hnumbers : entryLines.drop k =
      number :: numbersFrom (number + 1 + rest.count '\n') parts := by
    rw [h.numbers, numbersFrom]
    simp only [List.count_eq_zero_of_not_mem hgap, List.count_append,
      List.count_eq_zero_of_not_mem hfirst, List.count_cons_self, Nat.add_zero, Nat.zero_add]
    congr 2
    omega
  have hnumber : entryLines[k]? = some number := by
    rw [← List.head?_drop, hnumbers]
    rfl
  have hranges := h.ranges
  rw [rangesFrom] at hranges
  have hrange : declared[k]? = some ⟨offset + bytes gap, offset + bytes gap + bytes element⟩ := by
    rw [← List.head?_drop, hranges]
    rfl
  refine ⟨?_, hrange, ?_, ?_, ?_⟩
  · obtain ⟨hk, hget⟩ := List.getElem?_eq_some_iff.mp hnumber
    rw [List.findIdx?_eq_some_iff_getElem]
    refine ⟨hk, by simp [hget], fun j hj => ?_⟩
    have hmem : entryLines[j] ∈ entryLines.take k := by
      rw [List.mem_take_iff_getElem]
      exact ⟨j, by omega, rfl⟩
    have := h.before _ hmem
    simp only [beq_iff_eq]
    omega
  · rw [← List.drop_drop, hnumbers]
    rfl
  · intro i hi
    rw [List.take_add_one, hnumber] at hi
    rcases List.mem_append.mp hi with hi | hi
    · exact Nat.lt_succ_of_lt (h.before i hi)
    · simp at hi
      omega
  · have hfeed : ('\n' : Char).utf8Size = 1 := rfl
    rw [← List.drop_drop, hranges, List.drop_one, List.tail_cons]
    simp only [bytes_append, bytes_cons, hfeed]
    congr 1
    omega

/-- The rows fit the numbers and the offsets computed from the elements. -/
theorem fits_rowsFrom {parts : List (List Char × List Char)} (hapart : Apart parts) {k : Nat}
    {gap : List Char} {number offset : Nat}
    (h : Ahead entryLines declared k gap parts number offset) :
    Fits entryLines declared number offset (rowsFrom k (cutAt '\n' gap) parts) := by
  -- the gap gets shorter line by line, and at its last line an element is taken
  induction hn : gap.length + (spread parts).length using Nat.strong_induction_on
    generalizing parts k gap number offset with
  | _ n ih =>
      by_cases hgap : '\n' ∈ gap
      · obtain ⟨first, rest, hfirst, rfl, hcut⟩ := cutAt_of_mem hgap
        rw [hcut, rowsFrom_cons k first (cutAt_ne_nil _ _)]
        refine ⟨?_, ih _ ?_ hapart (h.next hfirst) rfl⟩
        · intro hmem
          rw [← List.take_append_drop k entryLines, h.numbers] at hmem
          rcases List.mem_append.mp hmem with hmem | hmem
          · exact Nat.lt_irrefl _ (h.before _ hmem)
          · have := le_of_mem_numbersFrom hmem
            rw [List.count_append, List.count_cons_self] at this
            omega
        · rw [← hn]
          simp
          omega
      · rw [cutAt_of_notMem hgap]
        cases parts with
        | nil => exact trivial
        | cons p parts =>
            obtain ⟨element, after⟩ := p
            obtain ⟨-, hafter⟩ := hapart _ List.mem_cons_self
            obtain ⟨first, rest, hfirst, rfl, hcut⟩ := cutAt_of_mem hafter
            obtain ⟨hidx, hrange, hnext⟩ := h.entry hgap hfirst
            rw [rowsFrom, hcut]
            refine ⟨hidx, hrange, ih _ ?_ (fun p hp => hapart p (List.mem_cons_of_mem _ hp)) hnext rfl⟩
            rw [← hn]
            simp [spread]
            omega

end

/-- The lines that an update keeps are the rows that stay. -/
theorem keptLines_eq {b : Bracketed} {layout : Layout} {first rest : List Char}
    (h : Laid b layout first rest) (kept : List Nat) :
    keptLines layout b.ranges kept = (b.rows.filter (Row.stays kept)).map Row.line := by
  have hcut : (cutAt '\n' b.opening).tail = cutAt '\n' rest := by
    rw [h.opening, cutAt_append_cons, cutAt_of_notMem h.oneLine]
    rfl
  have hahead : Ahead layout.entryLines b.ranges 0 rest b.parts 1 (bytes first + 2) := by
    refine ⟨?_, fun i hi => absurd hi List.not_mem_nil, ?_⟩
    · rw [List.drop_zero, h.entryLines, h.opening]
      simp only [List.count_append, List.count_eq_zero_of_not_mem h.oneLine, List.count_cons_self]
      congr 1
      omega
    · have hfeed : ('\n' : Char).utf8Size = 1 := rfl
      rw [List.drop_zero, Bracketed.ranges, h.opening, bytes_append, bytes_cons, hfeed]
      congr 1
      omega
  have hfits := fits_rowsFrom h.apart hahead
  rw [← hcut] at hfits
  rw [keptLines, h.interior]
  exact filterMap_keepLine rfl kept hfits

/-! ### The entries -/

/-- The ranges cut out the elements. -/
theorem map_slice?_rangesFrom (before : List Char) (parts : List (List Char × List Char))
    (after : List Char) :
    (rangesFrom (bytes before) parts).map (fun r =>
        slice? (String.ofList (before ++ (spread parts ++ after))) r.start r.stop) =
      parts.map fun p => some (String.ofList p.1) := by
  induction parts generalizing before with
  | nil => rfl
  | cons p parts ih =>
      obtain ⟨element, gap⟩ := p
      have hhead := slice?_append (String.ofList before) (String.ofList element)
        (String.ofList (gap ++ (spread parts ++ after)))
      rw [← String.ofList_append, ← String.ofList_append] at hhead
      have htail := ih (before ++ (element ++ gap))
      rw [bytes_append, bytes_append, ← Nat.add_assoc] at htail
      simp only [rangesFrom, List.map_cons, spread]
      rw [← htail]
      simp only [List.append_assoc, byteLength_ofList] at hhead ⊢
      rw [hhead]

theorem slice?_ranges (b : Bracketed) :
    b.ranges.map (fun r => slice? b.text r.start r.stop) = b.elements.map some := by
  have h := map_slice?_rangesFrom ('[' :: b.opening) b.parts [']']
  rw [← ranges_eq, List.cons_append] at h
  rw [Bracketed.text, h, Bracketed.elements, List.map_map]
  rfl

/-- The entries of an update are the kept elements and the added entries. -/
theorem entries_eq (b : Bracketed) (kept : List Nat) (added : List String) :
    entries b.text b.ranges kept added = kept.filterMap (b.elements[·]?) ++ added := by
  unfold entries
  congr 2
  funext i
  have h := congrArg (·[i]?) (slice?_ranges b)
  simp only [List.getElem?_map] at h
  cases hr : b.ranges[i]? <;> cases he : b.elements[i]? <;> simp_all

/-- The numbers from `k` on of a list in order are `k`, if it is there, and those after it. -/
theorem filter_le_eq {kept : List Nat} (h : kept.Pairwise (· < ·)) (k : Nat) :
    kept.filter (k ≤ ·) = (if k ∈ kept then [k] else []) ++ kept.filter (k + 1 ≤ ·) := by
  induction kept with
  | nil => rfl
  | cons i kept ih =>
      obtain ⟨hi, hkept⟩ := List.pairwise_cons.mp h
      simp only [List.filter_cons, decide_eq_true_eq, List.mem_cons, ih hkept]
      by_cases hk : k ∈ kept
      · have hlt : i < k := hi k hk
        rw [if_neg (by omega : ¬ k ≤ i), if_neg (by omega : ¬ k + 1 ≤ i), if_pos hk,
          if_pos (Or.inr hk)]
      · rcases Nat.lt_trichotomy k i with hlt | rfl | hlt
        · rw [if_pos (by omega : k ≤ i), if_pos (by omega : k + 1 ≤ i), if_neg hk,
            if_neg (not_or.mpr ⟨by omega, hk⟩)]
          rfl
        · rw [if_pos (Nat.le_refl k), if_neg (by omega : ¬ k + 1 ≤ k), if_neg hk,
            if_pos (Or.inl rfl)]
          rfl
        · rw [if_neg (by omega : ¬ k ≤ i), if_neg (by omega : ¬ k + 1 ≤ i), if_neg hk,
            if_neg (not_or.mpr ⟨by omega, hk⟩)]

/-- The elements of the rows that stay are the kept ones. -/
theorem elements_rowsFrom {kept : List Nat} (hkept : kept.Pairwise (· < ·)) (k : Nat)
    (ls : List (List Char)) (parts : List (List Char × List Char)) :
    ((rowsFrom k ls parts).filter (Row.stays kept)).filterMap Row.element? =
      (kept.filter (k ≤ ·)).filterMap fun i => (parts[i - k]?).map Prod.fst := by
  have hplain (ls : List (List Char)) :
      ((ls.map Row.plain).filter (Row.stays kept)).filterMap Row.element? = [] := by
    simp [List.filterMap_eq_nil_iff, Row.element?]
  induction parts generalizing k ls with
  | nil => rw [rowsFrom, hplain]; simp
  | cons p parts ih =>
      obtain ⟨element, gap⟩ := p
      have hlater : (kept.filter (k + 1 ≤ ·)).filterMap
            (fun i => (((element, gap) :: parts)[i - k]?).map Prod.fst) =
          (kept.filter (k + 1 ≤ ·)).filterMap fun i => (parts[i - (k + 1)]?).map Prod.fst := by
        refine List.filterMap_congr fun i hi => ?_
        have hle : k + 1 ≤ i := by simpa using (List.mem_filter.mp hi).2
        rw [show i - k = (i - (k + 1)) + 1 by omega, List.getElem?_cons_succ]
      rw [rowsFrom, List.filter_append, List.filterMap_append, hplain, List.nil_append,
        filter_le_eq hkept, List.filterMap_append, hlater, ← ih (k + 1) (cutAt '\n' gap).tail]
      by_cases hk : k ∈ kept
      · rw [List.filter_cons_of_pos (by simpa [Row.stays] using hk), if_pos hk]
        simp [Row.element?]
      · rw [List.filter_cons_of_neg (by simpa [Row.stays] using hk), if_neg hk]
        rfl

/-- The kept elements stand in the rows that stay. -/
theorem elements_rows {kept : List Nat} (hkept : kept.Pairwise (· < ·)) (b : Bracketed) :
    ((b.rows.filter (Row.stays kept)).filterMap Row.element?).map String.ofList =
      kept.filterMap (b.elements[·]?) := by
  rw [Bracketed.rows, elements_rowsFrom hkept, List.map_filterMap]
  have hall : kept.filter (0 ≤ ·) = kept := by simp
  rw [hall]
  refine List.filterMap_congr fun i _ => ?_
  simp [Bracketed.elements, Function.comp_def]

/-! ### The cuts -/

theorem slice?_of_mem_ranges {b : Bracketed} {r : ByteRange} (h : r ∈ b.ranges) :
    ∃ t, slice? b.text r.start r.stop = some t := by
  have hmem := List.mem_map_of_mem (f := fun r : ByteRange => slice? b.text r.start r.stop) h
  rw [slice?_ranges, List.mem_map] at hmem
  obtain ⟨t, -, ht⟩ := hmem
  exact ⟨t, ht.symm⟩

theorem lineOf?_of_mem_zip {lines : List PlacedLine} {declared : List ByteRange}
    {numbers : List Nat} (h : declared.map (lineOf? lines) = numbers.map some) {r : ByteRange}
    {number : Nat} (hmem : (r, number) ∈ declared.zip numbers) : lineOf? lines r = some number := by
  obtain ⟨i, hi⟩ := List.mem_iff_getElem?.mp hmem
  rw [List.getElem?_zip_eq_some] at hi
  have hget := congrArg (·[i]?) h
  simp only [List.getElem?_map, hi.1, hi.2, Option.map_some, Option.some.injEq] at hget
  exact hget

/-- Where every range is a piece of the text, an update by lines can cut at the ends of all of
them. -/
theorem cutsCleanly_of_layout? {array : String} {declared : List ByteRange} {layout : Layout}
    (hlayout : layout? array declared = some layout)
    (hpieces : ∀ r ∈ declared, ∃ t, slice? array r.start r.stop = some t) (kept : List Nat) :
    cutsCleanly array layout declared kept = true := by
  obtain ⟨head, tail, -, hlines, -, -, -, hnumbers, hinterior, -⟩ := layout?_eq_some hlayout
  obtain ⟨hfound, -, hinner⟩ := entryLines?_eq_some hnumbers
  rw [cutsCleanly, Bool.and_eq_true]
  constructor
  · rw [Option.all_eq_true]
    intro r hr
    obtain ⟨t, ht⟩ := hpieces r (List.mem_of_getLast? hr)
    exact isBoundary_stop ht
  · rw [List.all_eq_true]
    rintro ⟨⟨r, number⟩, entry⟩ hmem
    have hzip : (r, number) ∈ declared.zip layout.entryLines := List.fst_mem_of_mem_zipIdx hmem
    obtain ⟨hr, hnumber⟩ := List.of_mem_zip hzip
    obtain ⟨t, ht⟩ := hpieces r hr
    rw [Bool.or_eq_true]
    refine Or.inr ?_
    rw [endsOnLine, isBoundary_stop ht, Bool.true_and, Option.all_eq_true]
    intro l hl
    -- The lines between the brackets are counted from the line of the opening bracket.
    have hline : (placedLines array)[number]? = some l := by
      have hpos : number ≠ 0 := (hinner number hnumber).1
      obtain ⟨i, rfl⟩ : ∃ i, number = i + 1 := ⟨number - 1, by omega⟩
      rw [Nat.add_sub_cancel, hinterior, List.getElem?_dropLast] at hl
      rw [hlines, List.getElem?_cons_succ]
      split at hl
      · exact hl
      · contradiction
    obtain ⟨hlt, hholds, -⟩ :=
      List.findIdx?_eq_some_iff_getElem.mp (lineOf?_of_mem_zip hfound hzip)
    rw [(List.getElem?_eq_some_iff.mp hline).2] at hholds
    have hle := le_of_slice? ht
    simp only [Bool.and_eq_true, decide_eq_true_eq] at hholds ⊢
    omega

end HookLint.Dependency.ArrayText

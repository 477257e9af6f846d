/-
An update by lines keeps the layout.

The entries of an array may be any pieces of its text, as long as each is on a line of its own
between the lines of the brackets.  `LaidOut` says what stands on those lines, and
`exists_laidOut` that the offsets by which an update finds them tell the same: lines do not
overlap, so a piece is on one line only.  The lines of the updated array are then the rows
that stay, each as `Row.written` says, with the added entries in between.
-/
import HookLint.Proofs.ArrayUpdate

namespace HookLint.Dependency.ArrayText

open HookLint.Text

/-! ### Placed lines -/

theorem le_start_of_mem_place {offset : Nat} {ls : List String} {l : PlacedLine}
    (h : l ∈ place offset ls) : offset ≤ l.start := by
  induction ls generalizing offset with
  | nil => contradiction
  | cons t ls ih =>
      rcases List.mem_cons.mp h with rfl | h
      · exact Nat.le_refl _
      · have := ih h
        omega

/-- Every line ends before the next one starts. -/
theorem pairwise_place (offset : Nat) (ls : List String) :
    (place offset ls).Pairwise fun l l' => l.stop < l'.start := by
  induction ls generalizing offset with
  | nil => exact .nil
  | cons t ls ih =>
      refine List.pairwise_cons.mpr ⟨fun l hl => ?_, ih _⟩
      exact le_start_of_mem_place hl

theorem pairwise_placedLines (array : String) :
    (placedLines array).Pairwise fun l l' => l.stop < l'.start :=
  pairwise_place 0 (segments array)

/-- The lines of a text are pieces of it. -/
theorem exists_of_mem_place {before cs : List Char} {l : PlacedLine}
    (h : l ∈ place (bytes before) ((cutAt '\n' cs).map String.ofList)) :
    ∃ xs ys, before ++ cs = xs ++ (l.text.toList ++ ys) ∧ bytes xs = l.start := by
  induction hn : cs.length using Nat.strong_induction_on generalizing before cs with
  | _ n ih =>
      by_cases hmem : '\n' ∈ cs
      · obtain ⟨piece, rest, -, rfl, hcut⟩ := cutAt_of_mem hmem
        rw [hcut, List.map_cons, place] at h
        rcases List.mem_cons.mp h with rfl | h
        · exact ⟨before, '\n' :: rest, by simp, rfl⟩
        · have hfeed : ('\n' : Char).utf8Size = 1 := rfl
          have hoffset : bytes before + byteLength (String.ofList piece) + 1 =
              bytes (before ++ (piece ++ ['\n'])) := by
            simp [hfeed, Nat.add_assoc]
          rw [hoffset] at h
          obtain ⟨xs, ys, heq, hxs⟩ := ih rest.length (by rw [← hn]; simp; omega) h rfl
          exact ⟨xs, ys, by simpa using heq, hxs⟩
      · rw [cutAt_of_notMem hmem] at h
        rw [List.mem_singleton.mp h]
        exact ⟨before, [], by simp, rfl⟩

theorem slice?_of_mem_placedLines {array : String} {l : PlacedLine} (h : l ∈ placedLines array) :
    slice? array l.start l.stop = some l.text := by
  obtain ⟨xs, ys, heq, hxs⟩ := @exists_of_mem_place [] array.toList l h
  refine slice?_eq_some_iff.mpr ⟨String.ofList xs, String.ofList ys, ?_, hxs, ?_⟩
  · apply String.toList_inj.mp
    simpa using heq
  · rw [PlacedLine.stop, ← hxs]
    rfl

theorem forall_slice?_of_all {array : String} {declared : List ByteRange}
    (h : (declared.all fun r => (slice? array r.start r.stop).isSome) = true) :
    ∀ r ∈ declared, ∃ t, slice? array r.start r.stop = some t :=
  fun r hr => Option.isSome_iff_exists.mp (List.all_eq_true.mp h r hr)

/-- A piece of a text that lies on a line is a piece of the line. -/
theorem exists_split {array t : String} {r : ByteRange} {l : PlacedLine}
    (hl : l ∈ placedLines array) (ht : slice? array r.start r.stop = some t)
    (hstart : l.start ≤ r.start) (hstop : r.stop ≤ l.stop) :
    ∃ lead element rest, l.text = String.ofList (lead ++ (element ++ rest)) ∧
      r = ⟨l.start + bytes lead, l.start + bytes lead + bytes element⟩ := by
  have hline := slice?_slice? (slice?_of_mem_placedLines hl) hstart (le_of_slice? ht) hstop
  rw [ht] at hline
  obtain ⟨u, v, htext, hu, hlen⟩ := slice?_eq_some_iff.mp hline
  refine ⟨u.toList, t.toList, v.toList, ?_, ?_⟩
  · rw [htext, String.append_assoc]
    simp
  · have hle := le_of_slice? ht
    have hbu : bytes u.toList = byteLength u := by rw [bytes, String.ofList_toList]
    have hbt : bytes t.toList = byteLength t := by rw [bytes, String.ofList_toList]
    cases r
    rw [hbu, hbt]
    simp only [ByteRange.mk.injEq] at *
    omega

/-! ### What stands on the lines -/

/-- At an offset of a text, a row with an entry has it where the entry is declared, and on a row
without one nothing is declared. -/
def Row.StandsAt (declared : List ByteRange) (offset : Nat) : Row → Prop
  | .plain t => ∀ r ∈ declared, ¬ (offset ≤ r.start ∧ r.stop ≤ offset + bytes t)
  | .entry k lead element _ =>
    declared[k]? = some ⟨offset + bytes lead, offset + bytes lead + bytes element⟩

/-- Rows that follow one another from an offset on. -/
def RowsStandAt (declared : List ByteRange) : Nat → List Row → Prop
  | _, [] => True
  | offset, r :: rows =>
    r.StandsAt declared offset ∧ RowsStandAt declared (offset + bytes r.text + 1) rows

/-- What stands on the lines of an array with one entry a line. -/
structure LaidOut (array : String) (declared : List ByteRange) where
  /-- the line of the opening bracket -/
  opening : String
  rows : List Row
  /-- the line of the closing bracket -/
  closing : String
  segments_eq : segments array =
    opening :: ((rows.map fun r => String.ofList r.text) ++ [closing])
  bracket : trim opening = "["
  stand : RowsStandAt declared (byteLength opening + 1) rows
  /-- every declared entry has its row -/
  each : ∀ k < declared.length, ∃ lead element rest, Row.entry k lead element rest ∈ rows

section

variable {array : String} {declared : List ByteRange} {numbers : List Nat}

/-- The range whose line has a number. -/
theorem exists_of_number (hfound : declared.map (lineOf? (placedLines array)) = numbers.map some)
    {k n : Nat} (hn : numbers[k]? = some n) :
    ∃ r, declared[k]? = some r ∧ lineOf? (placedLines array) r = some n := by
  have hget := congrArg (·[k]?) hfound
  simp only [List.getElem?_map, hn, Option.map_some, Option.map_eq_some_iff] at hget
  exact hget

/-- A line that offsets find holds an entry where they say, and a line they do not find holds
none. -/
theorem exists_entry_or_none (hpieces : ∀ r ∈ declared, ∃ t, slice? array r.start r.stop = some t)
    (hfound : declared.map (lineOf? (placedLines array)) = numbers.map some) {n : Nat}
    {l : PlacedLine} (hl : (placedLines array)[n]? = some l) :
    (n ∉ numbers ∧ ∀ r ∈ declared, ¬ (l.start ≤ r.start ∧ r.stop ≤ l.stop)) ∨
      ∃ k lead element rest, numbers.findIdx? (· == n) = some k ∧
        l.text = String.ofList (lead ++ (element ++ rest)) ∧
        declared[k]? = some ⟨l.start + bytes lead, l.start + bytes lead + bytes element⟩ := by
  have hholds {r : ByteRange} {m : Nat} (h : lineOf? (placedLines array) r = some m) :
      ∃ l', (placedLines array)[m]? = some l' ∧ l'.start ≤ r.start ∧ r.stop ≤ l'.stop := by
    obtain ⟨hm, hline, -⟩ := List.findIdx?_eq_some_iff_getElem.mp h
    refine ⟨_, List.getElem?_eq_getElem hm, ?_⟩
    simpa using hline
  by_cases hn : n ∈ numbers
  · obtain ⟨k, hk⟩ : ∃ k, numbers.findIdx? (· == n) = some k := by
      rw [← Option.isSome_iff_exists, List.findIdx?_isSome, List.any_eq_true]
      exact ⟨n, hn, by simp⟩
    obtain ⟨hlt, hkn, -⟩ := List.findIdx?_eq_some_iff_getElem.mp hk
    have hnumber : numbers[k]? = some n := by
      rw [List.getElem?_eq_getElem hlt, beq_iff_eq.mp hkn]
    obtain ⟨r, hr, hline⟩ := exists_of_number hfound hnumber
    obtain ⟨l', hl', hstart, hstop⟩ := hholds hline
    obtain rfl : l = l' := Option.some.inj (hl.symm.trans hl')
    obtain ⟨t, ht⟩ := hpieces r (List.mem_of_getElem? hr)
    obtain ⟨lead, element, rest, htext, rfl⟩ :=
      exists_split (List.mem_of_getElem? hl) ht hstart hstop
    exact Or.inr ⟨k, lead, element, rest, hk, htext, hr⟩
  · refine Or.inl ⟨hn, fun r hr => ?_⟩
    rintro ⟨hstart, hstop⟩
    have hmem : lineOf? (placedLines array) r ∈ numbers.map some := hfound ▸ List.mem_map_of_mem hr
    obtain ⟨m, hm, hline⟩ := List.mem_map.mp hmem
    obtain ⟨l', hl', hstart', hstop'⟩ := hholds hline.symm
    obtain ⟨t, ht⟩ := hpieces r hr
    have hle := le_of_slice? ht
    -- lines do not overlap, so the piece is on no other line than the one that was found
    have hapart := List.pairwise_iff_getElem.mp (pairwise_placedLines array)
    obtain ⟨hnlt, rfl⟩ := List.getElem?_eq_some_iff.mp hl
    obtain ⟨hmlt, rfl⟩ := List.getElem?_eq_some_iff.mp hl'
    rcases Nat.lt_trichotomy m n with hlt | rfl | hlt
    · have := hapart m n hmlt hnlt hlt
      omega
    · exact hn hm
    · have := hapart n m hnlt hmlt hlt
      omega

/-- The lines that follow one another from an offset on, as rows. -/
theorem exists_rows (hpieces : ∀ r ∈ declared, ∃ t, slice? array r.start r.stop = some t)
    (hfound : declared.map (lineOf? (placedLines array)) = numbers.map some) {ls : List String}
    {number offset : Nat}
    (hls : ∀ i l, (place offset ls)[i]? = some l → (placedLines array)[number + i]? = some l) :
    ∃ rows : List Row, (rows.map fun r => String.ofList r.text) = ls ∧
      Fits numbers declared number offset rows ∧ RowsStandAt declared offset rows := by
  induction ls generalizing number offset with
  | nil => exact ⟨[], rfl, trivial, trivial⟩
  | cons t ls ih =>
      obtain ⟨rows, hrows, hfits, hstand⟩ := @ih (number + 1) (offset + byteLength t + 1)
        fun i l hl => by
          rw [Nat.add_assoc, Nat.add_comm 1 i]
          exact hls (i + 1) l hl
      rcases exists_entry_or_none hpieces hfound (hls 0 ⟨offset, t⟩ rfl) with
        ⟨hnone, hfree⟩ | ⟨k, lead, element, rest, hk, htext, hrange⟩
      · have hbytes : bytes t.toList = byteLength t := by rw [bytes, String.ofList_toList]
        refine ⟨.plain t.toList :: rows, ?_, ⟨hnone, ?_⟩, ?_, ?_⟩
        · rw [List.map_cons, hrows, Row.text_plain, String.ofList_toList]
        · rw [hbytes]
          exact hfits
        · intro r hr
          rw [hbytes]
          exact hfree r hr
        · rw [Row.text_plain, hbytes]
          exact hstand
      · obtain rfl : t = String.ofList (lead ++ (element ++ rest)) := htext
        refine ⟨.entry k lead element rest :: rows, ?_, ⟨hk, hrange, hfits⟩, hrange, hstand⟩
        rw [List.map_cons, hrows, Row.text_entry]

/-- The row of an entry whose line is among the rows. -/
theorem exists_entry_of_fits (hnodup : numbers.Nodup) {k n : Nat} (hk : numbers[k]? = some n)
    {rows : List Row} {number offset : Nat} (hfits : Fits numbers declared number offset rows)
    (hle : number ≤ n) (hlt : n < number + rows.length) :
    ∃ lead element rest, Row.entry k lead element rest ∈ rows := by
  induction rows generalizing number offset with
  | nil => exact absurd hlt (Nat.not_lt.mpr hle)
  | cons r rows ih =>
      rw [List.length_cons] at hlt
      have hlater {offset' : Nat} (hrest : Fits numbers declared (number + 1) offset' rows)
          (hne : number ≠ n) : ∃ lead element rest, Row.entry k lead element rest ∈ r :: rows := by
        obtain ⟨lead, element, rest, hmem⟩ := ih hrest (by omega) (by omega)
        exact ⟨lead, element, rest, List.mem_cons_of_mem _ hmem⟩
      cases r with
      | plain t =>
          obtain ⟨hnone, hrest⟩ := hfits
          refine hlater hrest fun heq => ?_
          exact hnone (heq ▸ List.mem_of_getElem? hk)
      | entry k' lead element rest =>
          obtain ⟨hidx, -, hrest⟩ := hfits
          by_cases heq : number = n
          · obtain ⟨hlt', hnumber, -⟩ := List.findIdx?_eq_some_iff_getElem.mp hidx
            have hk' : numbers[k']? = some n := by
              rw [List.getElem?_eq_getElem hlt', beq_iff_eq.mp hnumber, heq]
            obtain rfl : k' = k := (List.getElem?_inj hlt' hnodup).mp (hk'.trans hk.symm)
            exact ⟨lead, element, rest, List.mem_cons_self⟩
          · exact hlater hrest heq

/-- An array whose layout is read is laid out in rows, and the lines that an update keeps are the
rows that stay. -/
theorem exists_laidOut {layout : Layout} (hlayout : layout? array declared = some layout)
    (hpieces : ∀ r ∈ declared, ∃ t, slice? array r.start r.stop = some t) :
    ∃ l : LaidOut array declared, layout.closing = l.closing ∧
      layout.interior =
        place (byteLength l.opening + 1) (l.rows.map fun r => String.ofList r.text) ∧
      ∀ kept, keptLines layout declared kept =
        (l.rows.filter (Row.stays kept)).map Row.line := by
  obtain ⟨head, tail, last, hlines, htail, hlast, htrim, hnumbers, hinterior, hclosing⟩ :=
    layout?_eq_some hlayout
  obtain ⟨hfound, hnodup, hinner⟩ := entryLines?_eq_some hnumbers
  obtain ⟨opening, rest, hsegments⟩ : ∃ opening rest, segments array = opening :: rest := by
    refine List.exists_cons_of_ne_nil fun hnil => ?_
    exact cutAt_ne_nil '\n' array.toList (List.map_eq_nil_iff.mp hnil)
  rw [placedLines, hsegments, place, List.cons.injEq, Nat.zero_add] at hlines
  obtain ⟨rfl, rfl⟩ := hlines
  obtain ⟨ls, closing, rfl⟩ : ∃ ls closing, rest = ls ++ [closing] := by
    rcases List.eq_nil_or_concat rest with rfl | ⟨ls, closing, h⟩
    · exact absurd rfl htail
    · exact ⟨ls, closing, h.trans (List.concat_eq_append ..)⟩
  obtain ⟨start, hplace⟩ := place_concat (byteLength opening + 1) ls closing
  rw [hplace, List.getLast?_concat, Option.some.injEq] at hlast
  rw [hplace, List.dropLast_concat] at hinterior
  have hls : ∀ i l, (place (byteLength opening + 1) ls)[i]? = some l →
      (placedLines array)[1 + i]? = some l := by
    intro i l hl
    obtain ⟨hi, -⟩ := List.getElem?_eq_some_iff.mp hl
    rw [placedLines, hsegments, place, Nat.zero_add, hplace, Nat.add_comm 1 i,
      List.getElem?_cons_succ, List.getElem?_append_left hi, hl]
  obtain ⟨rows, rfl, hfits, hstand⟩ := exists_rows hpieces hfound hls
  have hlength : (placedLines array).length = rows.length + 2 := by
    rw [placedLines, length_place, hsegments]
    simp
  have heach : ∀ k < declared.length,
      ∃ lead element rest, Row.entry k lead element rest ∈ rows := by
    intro k hk
    obtain ⟨n, hn⟩ : ∃ n, layout.entryLines[k]? = some n := by
      have hsame := congrArg List.length hfound
      rw [List.length_map, List.length_map] at hsame
      exact ⟨_, List.getElem?_eq_getElem (hsame ▸ hk)⟩
    obtain ⟨r, -, hline⟩ := exists_of_number hfound hn
    obtain ⟨hlt, -, -⟩ := List.findIdx?_eq_some_iff_getElem.mp hline
    obtain ⟨hzero, hlast⟩ := hinner n (List.mem_of_getElem? hn)
    exact exists_entry_of_fits hnodup hn hfits (by omega) (by omega)
  refine ⟨⟨opening, rows, closing, hsegments, htrim, hstand, heach⟩, ?_, hinterior, fun kept => ?_⟩
  · rw [hclosing, ← hlast]
  · rw [keptLines, hinterior]
    exact filterMap_keepLine rfl kept hfits

end

/-! ### Rows as they are written -/

/-- The text that followed an entry on its line, without a comma that stands first and the blanks
around it. -/
def pastComma (rest : List Char) : List Char :=
  let after := rest.dropWhile isBlank
  (if after.head? = some ',' then after.tail else after).dropWhile isBlank

/-- What is written after an entry and its comma: that text after one blank, or nothing. -/
def remark (rest : List Char) : List Char :=
  if (pastComma rest).isEmpty then [] else ' ' :: pastComma rest

theorem toList_writtenTail (rest : List Char) :
    (writtenTail (tailOf (String.ofList rest))).toList = remark rest := by
  have hblank (s : String) : (writtenTail s).toList =
      if (s.toList.dropWhile isBlank).isEmpty then [] else ' ' :: s.toList.dropWhile isBlank := by
    unfold writtenTail isBlankText trimStart
    by_cases h : s.toList.all isBlank = true
    · rw [if_pos h, if_pos (by rw [List.isEmpty_iff, List.dropWhile_eq_nil_iff]; simpa using h)]
      rfl
    · rw [if_neg h, if_neg (by rw [List.isEmpty_iff, List.dropWhile_eq_nil_iff]; simpa using h)]
      simp
  rw [hblank, toList_tailOf_eq]
  rfl

theorem pastComma_suffix (rest : List Char) : pastComma rest <:+ rest := by
  unfold pastComma
  dsimp only
  refine (List.dropWhile_suffix _).trans ?_
  split
  · exact (List.tail_suffix _).trans (List.dropWhile_suffix _)
  · exact List.dropWhile_suffix _

namespace Row

/-- A row as a line of the updated array: a row without an entry as it is, and one with an entry up
to the end of the entry, followed by a comma if told so and by the remark. -/
def written (comma : Bool) : Row → List Char
  | plain t => t
  | entry _ lead element rest =>
    lead ++ (element ++ ((if comma then [','] else []) ++ remark rest))

theorem toList_render (r : Row) (comma : Bool) :
    (r.line.render comma).toList = r.written comma := by
  cases r with
  | plain t => exact render_plain t comma
  | entry k lead element rest => rw [render_entry, toList_writtenTail, written]

theorem mem_written {r : Row} {comma : Bool} {c : Char} (h : c ∈ r.written comma) :
    c ∈ r.text ∨ c = ',' ∨ c = ' ' := by
  cases r with
  | plain t => exact Or.inl h
  | entry k lead element rest =>
      simp only [written, List.mem_append] at h
      rcases h with h | h | h | h
      · exact Or.inl (List.mem_append_left _ h)
      · exact Or.inl (List.mem_append_right _ (List.mem_append_left _ h))
      · cases comma with
        | true => exact Or.inr (Or.inl (List.mem_singleton.mp h))
        | false => contradiction
      · unfold remark at h
        split at h
        · contradiction
        · rcases List.mem_cons.mp h with rfl | h
          · exact Or.inr (Or.inr rfl)
          · have hrest := (pastComma_suffix rest).subset h
            exact Or.inl (List.mem_append_right _ (List.mem_append_right _ hrest))

end Row

/-- Rows as lines of the updated array.  Every entry but the last has a comma, and the last has one
when told so. -/
def writtenRows (trailing : Bool) : List Row → List (List Char)
  | [] => []
  | r :: rows => r.written (rows.any Row.isEntry || trailing) :: writtenRows trailing rows

theorem cutAt_renderLines (trailing : Bool) {rows : List Row} {closing : List Char}
    (hrows : ∀ r ∈ rows, '\n' ∉ r.text) (hclosing : '\n' ∉ closing) :
    cutAt '\n' ((renderLines trailing (rows.map Row.line)).toList ++ closing) =
      writtenRows trailing rows ++ [closing] := by
  induction rows with
  | nil => simpa [renderLines, writtenRows] using cutAt_of_notMem hclosing
  | cons r rows ih =>
      have hany : (rows.map Row.line).any (·.isEntry) = rows.any Row.isEntry := by
        rw [List.any_map]
        simp [Function.comp_def]
      have hline : '\n' ∉ r.written (trailing || rows.any Row.isEntry) := by
        intro hmem
        rcases Row.mem_written hmem with h | h | h
        · exact hrows r List.mem_cons_self h
        · exact absurd h (by decide)
        · exact absurd h (by decide)
      have htext : (renderLines trailing ((r :: rows).map Row.line)).toList ++ closing =
          r.written (trailing || rows.any Row.isEntry) ++ '\n' ::
            ((renderLines trailing (rows.map Row.line)).toList ++ closing) := by
        rw [List.map_cons, renderLines, hany, String.toList_append, String.toList_append,
          Row.toList_render]
        simp
      rw [htext, cutAt_append_cons, cutAt_of_notMem hline,
        ih fun r hr => hrows r (List.mem_cons_of_mem _ hr), writtenRows, Bool.or_comm]
      rfl

/-- The lines of an array that is written from rows. -/
theorem segments_renderLines (trailing : Bool) {rows : List Row} {closing : String}
    (hrows : ∀ r ∈ rows, '\n' ∉ r.text) (hclosing : '\n' ∉ closing.toList) :
    segments ("[\n" ++ renderLines trailing (rows.map Row.line) ++ closing) =
      "[" :: ((writtenRows trailing rows).map String.ofList ++ [closing]) := by
  have htext : ("[\n" ++ renderLines trailing (rows.map Row.line) ++ closing).toList =
      ['['] ++ '\n' :: ((renderLines trailing (rows.map Row.line)).toList ++ closing.toList) := by
    simp
  rw [segments, htext, cutAt_append_cons, cutAt_of_notMem (by decide),
    cutAt_renderLines trailing hrows hclosing]
  simp

/-! ### Where and how entries are added -/

/-- Rows are cut after their last entry, or at their end when they have none. -/
structure CutAfterEntry (rows upTo past : List Row) : Prop where
  append_eq : upTo ++ past = rows
  none_past : ∀ r ∈ past, r.isEntry = false
  ends : (∃ r, upTo.getLast? = some r ∧ r.isEntry = true) ∨
    (∀ r ∈ rows, r.isEntry = false) ∧ past = []

theorem cutAfterEntry (rows : List Row) : CutAfterEntry rows (upToEntry rows) (pastEntry rows) := by
  refine ⟨upToEntry_append_pastEntry rows, fun r => isEntry_of_mem_pastEntry, ?_⟩
  by_cases hnone : withEntry rows = []
  · right
    refine ⟨fun r hr => ?_, by rw [pastEntry, hnone]; rfl⟩
    rw [withEntry, List.reverse_eq_nil_iff, List.dropWhile_eq_nil_iff] at hnone
    simpa using hnone r (List.mem_reverse.mpr hr)
  · left
    have hsome : rows.reverse.dropWhile (!·.isEntry) ≠ [] :=
      fun h => hnone (by rw [withEntry, h]; rfl)
    refine ⟨_, ?_, by simpa using List.head_dropWhile_not (fun r : Row => !r.isEntry) hsome⟩
    rw [upToEntry, if_neg (by simpa using hnone), withEntry, List.getLast?_reverse]
    exact List.head?_eq_some_head hsome

/-- The indentation of the elements: that of the first line that is not blank, or two blanks more
than that of the closing bracket. -/
def indentOf (rows : List Row) (closing : String) : List Char :=
  match rows.find? fun r => !r.text.all isBlank with
  | some r => r.text.takeWhile isBlank
  | none => closing.toList.takeWhile isBlank ++ [' ', ' ']

theorem find?_place (p : String → Bool) (offset : Nat) (ls : List String) :
    ((place offset ls).find? fun l => p l.text).map PlacedLine.text = ls.find? p := by
  induction ls generalizing offset with
  | nil => rfl
  | cons t ls ih =>
      rw [place, List.find?_cons, List.find?_cons]
      cases p t with
      | true => rfl
      | false => exact ih _

theorem elementIndent_eq {layout : Layout} {rows : List Row} {offset : Nat}
    (h : layout.interior = place offset (rows.map fun r => String.ofList r.text)) :
    (elementIndent layout).toList = indentOf rows layout.closing := by
  have hfind := find?_place (fun t => !isBlankText t) offset
    (rows.map fun r => String.ofList r.text)
  rw [← h, List.find?_map] at hfind
  simp only [Function.comp_def, isBlankText, String.toList_ofList] at hfind
  unfold elementIndent indentOf isBlankText
  cases hr : rows.find? fun r => !r.text.all isBlank with
  | none =>
      rw [hr, Option.map_none, Option.map_eq_none_iff] at hfind
      rw [hfind]
      simp [leadingBlank]
  | some r =>
      rw [hr, Option.map_some, Option.map_eq_some_iff] at hfind
      obtain ⟨l, hl, htext⟩ := hfind
      rw [hl]
      simp [leadingBlank, htext]

/-- A comma follows the last declared entry after blanks. -/
def CommaFollows (array : String) (declared : List ByteRange) : Prop :=
  ∃ r ∈ declared.getLast?, ∃ before blanks after : String,
    array = before ++ (blanks ++ ("," ++ after)) ∧ byteLength before = r.stop ∧
      isBlankText blanks = true

theorem startsWith_trimStart_iff {s : String} :
    startsWith (trimStart s) "," = true ↔
      ∃ blanks after : String, s = blanks ++ ("," ++ after) ∧ isBlankText blanks = true := by
  rw [startsWith, trimStart, String.toList_ofList, List.isPrefixOf_iff_prefix]
  constructor
  · rintro ⟨after, hafter⟩
    refine ⟨leadingBlank s, String.ofList after, ?_, ?_⟩
    · apply String.toList_inj.mp
      have hsplit : s.toList.takeWhile isBlank ++ ([','] ++ after) = s.toList := by
        rw [hafter, String.toList_ofList, List.takeWhile_append_dropWhile]
      simpa [leadingBlank] using hsplit.symm
    · exact List.all_eq_true.mpr (isBlank_leadingBlank s)
  · rintro ⟨blanks, after, rfl, hblanks⟩
    refine ⟨after.toList, ?_⟩
    rw [String.toList_append, List.dropWhile_append_of_pos (List.all_eq_true.mp hblanks)]
    simp [isBlank]

theorem hasTrailingComma_iff {array : String} {declared : List ByteRange}
    (hpieces : ∀ r ∈ declared, ∃ t, slice? array r.start r.stop = some t) :
    hasTrailingComma array declared = true ↔ CommaFollows array declared := by
  rw [hasTrailingComma, Option.any_eq_true]
  refine exists_congr fun r => and_congr_right fun hr => ?_
  obtain ⟨t, ht⟩ := hpieces r (List.mem_of_getLast? hr)
  obtain ⟨u, v, rfl, -, hstop⟩ := slice?_eq_some_iff.mp ht
  have hcut : byteLength (u ++ t) = r.stop := by rw [byteLength_append, hstop]
  rw [← hcut, sliceFrom?_append, Option.getD_some, startsWith_trimStart_iff]
  constructor
  · rintro ⟨blanks, after, rfl, hblanks⟩
    exact ⟨u ++ t, blanks, after, rfl, rfl, hblanks⟩
  · rintro ⟨before, blanks, after, heq, hbefore, hblanks⟩
    obtain ⟨w, hw, hv⟩ := append_eq_append_of_le heq (Nat.le_of_eq hbefore.symm)
    have hnil : w = "" := by
      rw [hw, byteLength_append] at hbefore
      exact byteLength_eq_zero.mp (by omega)
    exact ⟨blanks, after, by simpa [hnil] using hv, hblanks⟩

/-! ### The updated array -/

section

variable {array : String} {declared : List ByteRange} {kept : List Nat} {added : List String}

/-- The rows of an update: those that stay, with those of the added entries after the last entry. -/
def LaidOut.Updates (l : LaidOut array declared) (kept : List Nat) (added : List String)
    (rows : List Row) : Prop :=
  ∃ upTo past, CutAfterEntry (l.rows.filter (Row.stays kept)) upTo past ∧
    rows = upTo ++ (added.map (addedRow (indentOf l.rows l.closing)) ++ past)

theorem LaidOut.Updates.mem_iff {l : LaidOut array declared} {rows : List Row}
    (h : l.Updates kept added rows) {r : Row} :
    r ∈ rows ↔ (r ∈ l.rows ∧ r.stays kept = true) ∨
      ∃ a ∈ added, addedRow (indentOf l.rows l.closing) a = r := by
  obtain ⟨upTo, past, hcut, rfl⟩ := h
  rw [← List.mem_filter, ← hcut.append_eq]
  simp only [List.mem_append, List.mem_map]
  rw [or_assoc, or_congr_right or_comm]

/-- The rows of an update have nothing on them when nothing is added and nothing stays. -/
theorem LaidOut.Updates.all_isVoid_iff {l : LaidOut array declared} {rows : List Row}
    (h : l.Updates kept added rows) : rows.all Row.isVoid = true ↔
      added = [] ∧ ∀ r ∈ l.rows, r.stays kept = true → r.isVoid = true := by
  rw [List.all_eq_true]
  constructor
  · intro hall
    refine ⟨List.eq_nil_iff_forall_not_mem.mpr fun a ha => ?_, fun r hr hstays => ?_⟩
    · have := hall _ (h.mem_iff.mpr (Or.inr ⟨a, ha, rfl⟩))
      contradiction
    · exact hall r (h.mem_iff.mpr (Or.inl ⟨hr, hstays⟩))
  · rintro ⟨rfl, hall⟩ r hr
    rcases h.mem_iff.mp hr with ⟨hr, hstays⟩ | ⟨a, ha, -⟩
    · exact hall r hr hstays
    · contradiction

/-- An array with one entry a line is written from the rows of the update, unless they are void. -/
theorem exists_updates {layout : Layout} (hlayout : layout? array declared = some layout)
    (hpieces : ∀ r ∈ declared, ∃ t, slice? array r.start r.stop = some t) (kept : List Nat)
    (added : List String) :
    ∃ (l : LaidOut array declared) (rows : List Row), l.Updates kept added rows ∧
      render? array declared kept added = some (if rows.all Row.isVoid then "[]" else
        "[\n" ++ renderLines (hasTrailingComma array declared) (rows.map Row.line) ++
          l.closing) := by
  obtain ⟨l, hclosing, hinterior, hkept⟩ := exists_laidOut hlayout hpieces
  have hindent : (elementIndent layout).toList = indentOf l.rows l.closing := by
    rw [elementIndent_eq hinterior, hclosing]
  have hlines : array.toList.contains '\n' = true := by
    by_contra hone
    rw [layout?_eq_none_of_oneLine (by simpa using hone)] at hlayout
    contradiction
  refine ⟨l, _, ⟨_, _, cutAfterEntry _, rfl⟩, ?_⟩
  unfold render?
  simp only [hlines, hlayout, Bool.not_true, Bool.false_eq_true, if_false,
    cutsCleanly_of_layout? hlayout hpieces kept, if_true]
  rw [renderLayout_rows (hkept kept), hindent, hclosing]

theorem LaidOut.cutAt_eq (l : LaidOut array declared) :
    cutAt '\n' array.toList = l.opening.toList :: (l.rows.map Row.text ++ [l.closing.toList]) := by
  have h := congrArg (List.map String.toList) l.segments_eq
  simpa [segments, Function.comp_def] using h

theorem LaidOut.notMem (l : LaidOut array declared) :
    (∀ r ∈ l.rows, '\n' ∉ r.text) ∧ '\n' ∉ l.closing.toList := by
  constructor
  · intro r hr
    apply @notMem_of_mem_cutAt _ _ '\n' array.toList
    rw [l.cutAt_eq]
    exact List.mem_cons_of_mem _ (List.mem_append_left _ (List.mem_map_of_mem hr))
  · apply @notMem_of_mem_cutAt _ _ '\n' array.toList
    rw [l.cutAt_eq]
    exact List.mem_cons_of_mem _ (List.mem_append_right _ List.mem_cons_self)

theorem notMem_indentOf {rows : List Row} {closing : String} (hrows : ∀ r ∈ rows, '\n' ∉ r.text)
    (hclosing : '\n' ∉ closing.toList) : '\n' ∉ indentOf rows closing := by
  unfold indentOf
  split
  · rename_i r hr
    exact fun h => hrows r (List.mem_of_find?_eq_some hr) (List.takeWhile_subset _ h)
  · rw [List.mem_append, not_or]
    exact ⟨fun h => hclosing (List.takeWhile_subset _ h), by decide⟩

theorem LaidOut.Updates.notMem {l : LaidOut array declared} {rows : List Row}
    (h : l.Updates kept added rows) (hadded : ∀ a ∈ added, '\n' ∉ a.toList) :
    ∀ r ∈ rows, '\n' ∉ r.text := by
  obtain ⟨hrows, hclosing⟩ := l.notMem
  intro r hr
  rcases h.mem_iff.mp hr with ⟨hr, -⟩ | ⟨a, ha, rfl⟩
  · exact hrows r hr
  · simpa [addedRow] using ⟨notMem_indentOf hrows hclosing, hadded a ha⟩

/-- An array with one entry a line is updated line by line: lines without an entry stay as they are,
lines of entries stay up to the end of the entry or go, and added entries follow the last that
stays. -/
theorem render_keeps_layout (hlayout : (layout? array declared).isSome = true)
    (hpieces : ∀ r ∈ declared, ∃ t, slice? array r.start r.stop = some t)
    (hadded : ∀ a ∈ added, '\n' ∉ a.toList) (kept : List Nat) :
    ∃ (text : String) (l : LaidOut array declared) (rows : List Row),
      render? array declared kept added = some text ∧ l.Updates kept added rows ∧
      (text = "[]" ↔ added = [] ∧ ∀ r ∈ l.rows, r.stays kept = true → r.isVoid = true) ∧
      (text ≠ "[]" → ∃ trailing : Bool, (trailing = true ↔ CommaFollows array declared) ∧
        segments text =
          "[" :: ((writtenRows trailing rows).map String.ofList ++ [l.closing])) := by
  obtain ⟨layout, hlayout⟩ := Option.isSome_iff_exists.mp hlayout
  obtain ⟨l, rows, hrows, hrender⟩ := exists_updates hlayout hpieces kept added
  have hsegments := segments_renderLines (hasTrailingComma array declared) (hrows.notMem hadded)
    l.notMem.2
  by_cases hall : rows.all Row.isVoid = true
  · rw [if_pos hall] at hrender
    exact ⟨"[]", l, rows, hrender, hrows, iff_of_true rfl (hrows.all_isVoid_iff.mp hall),
      fun h => absurd rfl h⟩
  · rw [if_neg hall] at hrender
    refine ⟨_, l, rows, hrender, hrows,
      iff_of_false (fun h => ?_) (mt hrows.all_isVoid_iff.mpr hall),
      fun _ => ⟨_, hasTrailingComma_iff hpieces, hsegments⟩⟩
    -- the text has a line feed
    rw [h] at hsegments
    have := congrArg List.length hsegments
    simp [segments, cutAt] at this

end

/-- An array with comments and a blank line. -/
def commented : String := "[\n  // x\n  a, // first\n\n  b,\n  c\n  // y\n]"

def commentedRanges : List ByteRange := [⟨11, 12⟩, ⟨26, 27⟩, ⟨31, 32⟩]

/-- Two entries go from the array and one is added, and the comments and the blank line stay. -/
theorem render_keeps_layout_comments :
    (∃ (text : String) (l : LaidOut commented commentedRanges) (rows : List Row)
      (trailing : Bool), render? commented commentedRanges [0] ["d.e"] = some text ∧
      l.Updates [0] ["d.e"] rows ∧
      (trailing = true ↔ CommaFollows commented commentedRanges) ∧
      segments text =
        "[" :: ((writtenRows trailing rows).map String.ofList ++ [l.closing])) ∧
    render? commented commentedRanges [0] ["d.e"] =
      some "[\n  // x\n  a, // first\n  d.e\n\n  // y\n]" := by
  have hpieces : ∀ r ∈ commentedRanges, ∃ t, slice? commented r.start r.stop = some t :=
    forall_slice?_of_all (by decide +kernel)
  refine ⟨?_, by decide +kernel⟩
  obtain ⟨text, l, rows, hrender, hrows, hnone, hlines⟩ := render_keeps_layout
    (by decide +kernel) hpieces (by decide : ∀ a ∈ ["d.e"], '\n' ∉ a.toList) [0]
  obtain ⟨trailing, hcomma, hsegments⟩ := hlines fun h => absurd (hnone.mp h).1 (by decide)
  exact ⟨text, l, rows, trailing, hrender, hrows, hcomma, hsegments⟩

end HookLint.Dependency.ArrayText

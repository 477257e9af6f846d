/-
Reading rows one after another.

A comment may run over the end of a line, so what a row means depends on the mode in which
it starts.  The rows of an array are read one after another, each in the mode the one before
it leaves, and in each of them nothing counts but commas and one element.  An update writes
such rows again with commas of its own after the elements; the commas a row holds besides
those are its loose ones.  `exists_bracketed` puts this together: rows that can be read one
after another are written as a bracketed text with their elements, and its gaps hold the
commas that were written and the loose ones.
-/
import HookLint.Proofs.ArrayRows

namespace HookLint.Dependency.ArrayText

open HookLint.Text

/-! ### A row after another -/

/-- The mode after a row and its line feed. -/
def Row.next (m : Mode) (r : Row) : Mode := m.after (r.text ++ ['\n'])

/-- Read in a mode, a row holds commas and comments, and its element outside of comments. -/
def Row.Reads (m : Mode) : Row → Prop
  | .plain t => OnlyCommas m (t ++ ['\n'])
  | .entry _ lead element rest =>
    OnlyCommas m lead ∧ m.after lead = .plain ∧ IsElement element ∧
      OnlyCommas .plain (rest ++ ['\n'])

/-- The mode after rows. -/
def through (m : Mode) (rows : List Row) : Mode := rows.foldl Row.next m

/-- The rows are read one after another. -/
def Runs : Mode → List Row → Prop
  | _, [] => True
  | m, r :: rows => r.Reads m ∧ Runs (r.next m) rows

@[simp] theorem through_nil (m : Mode) : through m [] = m := rfl

@[simp] theorem through_cons (m : Mode) (r : Row) (rows : List Row) :
    through m (r :: rows) = through (r.next m) rows := rfl

theorem through_append (m : Mode) (xs ys : List Row) :
    through m (xs ++ ys) = through (through m xs) ys :=
  List.foldl_append

theorem runs_append {m : Mode} {xs ys : List Row} :
    Runs m (xs ++ ys) ↔ Runs m xs ∧ Runs (through m xs) ys := by
  induction xs generalizing m with
  | nil => simp [Runs]
  | cons x xs ih => simp [Runs, ih, and_assoc]

theorem Row.next_entry {m : Mode} {k : Nat} {lead element rest : List Char}
    (h : (Row.entry k lead element rest).Reads m) :
    (Row.entry k lead element rest).next m = Mode.plain.after (rest ++ ['\n']) := by
  obtain ⟨-, hlead, hel, -⟩ := h
  rw [Row.next, Row.text_entry, List.append_assoc, List.append_assoc, Mode.after_append, hlead,
    Mode.after_append, hel.closed]

/-- The rows of elements are read one after another, and what stands before the closing
bracket on its line is the rest of a gap. -/
theorem runs_rowsFrom {parts : List (List Char × List Char)} (hapart : Apart parts)
    (hel : ∀ p ∈ parts, IsElement p.1) (hgaps : ∀ p ∈ parts, IsGap p.2) (k : Nat) {m : Mode}
    {gap : List Char} (hgap : OnlyCommas m gap) (hclosed : m.after gap = .plain) :
    Runs m (rowsFrom k (cutAt '\n' gap) parts) ∧
      OnlyCommas (through m (rowsFrom k (cutAt '\n' gap) parts))
        (closingFrom (cutAt '\n' gap) parts) ∧
      (through m (rowsFrom k (cutAt '\n' gap) parts)).after
        (closingFrom (cutAt '\n' gap) parts) = .plain := by
  induction hn : gap.length + (spread parts).length using Nat.strong_induction_on
    generalizing parts k gap m with
  | _ n ih =>
      by_cases hmem : '\n' ∈ gap
      · obtain ⟨first, rest, -, rfl, hcut⟩ := cutAt_of_mem hmem
        have hsplit : first ++ '\n' :: rest = (first ++ ['\n']) ++ rest := by simp
        rw [hsplit, onlyCommas_append] at hgap
        rw [hsplit, Mode.after_append] at hclosed
        have hlen : rest.length + (spread parts).length < n := by
          rw [← hn]
          simp
          omega
        obtain ⟨hruns, hclosing⟩ := ih _ hlen hapart hel hgaps k hgap.2 hclosed rfl
        have hclose : closingFrom (first :: cutAt '\n' rest) parts =
            closingFrom (cutAt '\n' rest) parts := by
          obtain ⟨l, ls, hls⟩ := List.exists_cons_of_ne_nil (cutAt_ne_nil '\n' rest)
          cases parts <;> simp [closingFrom, hls]
        rw [hcut, rowsFrom_cons k first (cutAt_ne_nil _ _), hclose]
        exact ⟨⟨hgap.1, hruns⟩, hclosing⟩
      · rw [cutAt_of_notMem hmem]
        cases parts with
        | nil => exact ⟨trivial, hgap, hclosed⟩
        | cons p parts =>
            obtain ⟨element, after⟩ := p
            obtain ⟨-, hafter⟩ := hapart _ List.mem_cons_self
            obtain ⟨first, rest, -, rfl, hcut⟩ := cutAt_of_mem hafter
            have hnext := hgaps _ List.mem_cons_self
            have hsplit : first ++ '\n' :: rest = (first ++ ['\n']) ++ rest := by simp
            have honly := hnext.onlyCommas
            have hend := hnext.closed
            rw [hsplit, onlyCommas_append] at honly
            rw [hsplit, Mode.after_append] at hend
            have hlen : rest.length + (spread parts).length < n := by
              rw [← hn]
              simp [spread]
              omega
            have hreads : (Row.entry k gap element first).Reads m :=
              ⟨hgap, hclosed, hel _ List.mem_cons_self, honly.1⟩
            obtain ⟨hruns, hclosing⟩ := ih _ hlen
              (fun p hp => hapart p (List.mem_cons_of_mem _ hp))
              (fun p hp => hel p (List.mem_cons_of_mem _ hp))
              (fun p hp => hgaps p (List.mem_cons_of_mem _ hp)) (k + 1) honly.2 hend rfl
            rw [rowsFrom, closingFrom, hcut]
            simp only [List.dropLast_singleton, List.map_nil, List.nil_append, List.headD_cons,
              List.tail_cons, List.getLastD_cons, List.getLastD_nil, through_cons, Runs]
            rw [Row.next_entry hreads]
            exact ⟨⟨hreads, hruns⟩, hclosing⟩

/-! ### What stands after an entry -/

theorem toList_tailOf_eq (rest : List Char) : (tailOf (String.ofList rest)).toList =
    if (rest.dropWhile isBlank).head? = some ',' then (rest.dropWhile isBlank).tail
    else rest.dropWhile isBlank := by
  unfold tailOf afterPrefix? startsWith trimStart
  simp only [String.toList_ofList]
  cases rest.dropWhile isBlank with
  | nil => rfl
  | cons c after =>
      by_cases hc : c = ','
      · subst hc
        simp
      · simp [List.isPrefixOf, hc, Ne.symm hc]

theorem toList_tailOf (cs : List Char) :
    (tailOf (String.ofList cs)).toList = cs.dropWhile isBlank ∨
      cs.dropWhile isBlank = ',' :: (tailOf (String.ofList cs)).toList := by
  rw [toList_tailOf_eq]
  by_cases hcomma : (cs.dropWhile isBlank).head? = some ','
  · right
    rw [if_pos hcomma]
    exact List.eq_cons_of_mem_head? hcomma
  · left
    rw [if_neg hcomma]

/-- The comma that an update takes away is read over. -/
theorem after_tailOf (cs : List Char) :
    Mode.plain.after (tailOf (String.ofList cs)).toList = Mode.plain.after cs := by
  rw [← Mode.after_dropWhile_isBlank cs]
  rcases toList_tailOf cs with h | h
  · rw [h]
  · rw [h, Mode.after_cons, Mode.next_plain_comma]

theorem mem_marks_of_mem_tailOf {cs : List Char} {c : Char}
    (h : c ∈ Mode.plain.marks (tailOf (String.ofList cs)).toList) : c ∈ Mode.plain.marks cs := by
  rw [← Mode.marks_dropWhile_isBlank cs]
  rcases toList_tailOf cs with heq | heq
  · rwa [← heq]
  · rw [heq, Mode.marks_cons, Mode.next_plain_comma]
    exact List.mem_append_right _ h

theorem onlyCommas_tailOf {cs : List Char} (h : OnlyCommas .plain (cs ++ ['\n'])) :
    OnlyCommas .plain ((tailOf (String.ofList cs)).toList ++ ['\n']) := by
  rw [onlyCommas_append] at h ⊢
  rw [after_tailOf]
  exact ⟨fun c hc => h.1 c (mem_marks_of_mem_tailOf hc), h.2⟩

/-- The tail of a line as it is written. -/
def writtenTail (tail : String) : String :=
  if isBlankText tail then "" else " " ++ trimStart tail

theorem after_writtenTail (tail : String) :
    Mode.plain.after (writtenTail tail).toList = Mode.plain.after tail.toList := by
  unfold writtenTail
  split
  · rename_i h
    rw [Mode.after_of_isBlank (List.all_eq_true.mp h)]
    rfl
  · have hblank : ∀ c ∈ " ".toList, isBlank c = true := List.all_eq_true.mp (by decide)
    rw [trimStart, String.toList_append, Mode.after_append, Mode.after_of_isBlank hblank,
      String.toList_ofList, Mode.after_dropWhile_isBlank]

theorem marks_writtenTail (tail : String) :
    Mode.plain.marks (writtenTail tail).toList = Mode.plain.marks tail.toList := by
  unfold writtenTail
  split
  · rename_i h
    rw [Mode.marks_of_isBlank (List.all_eq_true.mp h)]
    rfl
  · have hblank : ∀ c ∈ " ".toList, isBlank c = true := List.all_eq_true.mp (by decide)
    rw [trimStart, String.toList_append, Mode.marks_append, Mode.after_of_isBlank hblank,
      Mode.marks_of_isBlank hblank, String.toList_ofList, Mode.marks_dropWhile_isBlank,
      List.nil_append]

/-! ### Loose commas -/

/-- A line feed is no comma. -/
theorem commas_concat_lineFeed (m : Mode) (cs : List Char) :
    m.commas (cs ++ ['\n']) = m.commas cs := by
  have h (m : Mode) : m.commas ['\n'] = 0 := by cases m <;> decide
  rw [Mode.commas_append, h, Nat.add_zero]

/-- The commas that rows hold besides the ones that an update writes after the entries: those
before the first entry, and those after each.  The commas on the line of the closing bracket
are the last. -/
def looseFrom (closing : List Char) : Mode → List Row → Nat × List Nat
  | m, [] => (m.commas closing, [])
  | m, .plain t :: rows =>
    let later := looseFrom closing ((Row.plain t).next m) rows
    (m.commas t + later.1, later.2)
  | m, .entry number lead element rest :: rows =>
    let later := looseFrom closing ((Row.entry number lead element rest).next m) rows
    (m.commas lead, (Mode.plain.commas (tailOf (String.ofList rest)).toList + later.1) :: later.2)

/-- The commas after each entry, with those that an update writes: one after each entry but
the last, and one after the last when the array is to have a trailing comma. -/
def withWritten (trailing : Bool) : List Nat → List Nat
  | [] => []
  | n :: ns => ((trailing || !ns.isEmpty).toNat + n) :: withWritten trailing ns

/-- No loose comma follows an entry but the last, and after the last there is at most one
comma, loose or written. -/
def NoneLoose (trailing : Bool) : List Nat → Prop
  | [] => True
  | [n] => trailing.toNat + n ≤ 1
  | n :: ns => n = 0 ∧ NoneLoose trailing ns

instance (trailing : Bool) : (ns : List Nat) → Decidable (NoneLoose trailing ns)
  | [] => isTrue trivial
  | [n] => inferInstanceAs (Decidable (trailing.toNat + n ≤ 1))
  | n :: n' :: ns =>
    have : Decidable (NoneLoose trailing (n' :: ns)) := instDecidableNoneLoose trailing (n' :: ns)
    inferInstanceAs (Decidable (n = 0 ∧ NoneLoose trailing (n' :: ns)))

theorem spaced_withWritten (trailing : Bool) (ns : List Nat) :
    Spaced (withWritten trailing ns) ↔ NoneLoose trailing ns := by
  induction ns with
  | nil => simp [withWritten, Spaced, NoneLoose]
  | cons n ns ih =>
      cases ns with
      | nil => simp [withWritten, Spaced, NoneLoose]
      | cons n' ns =>
          rw [withWritten, withWritten, Spaced, NoneLoose, ← ih, withWritten]
          · simp
          · simp
          · simp

theorem isEmpty_looseFrom (closing : List Char) (m : Mode) (rows : List Row) :
    (looseFrom closing m rows).2.isEmpty = !rows.any Row.isEntry := by
  induction rows generalizing m with
  | nil => rfl
  | cons r rows ih => cases r <;> simp [looseFrom, Row.isEntry, ih]

/-! ### Rows as they are written -/

theorem render_plain (t : List Char) (comma : Bool) :
    ((Row.plain t).line.render comma).toList = t := by
  simp [Row.line, Line.render]

theorem render_entry (k : Nat) (lead element rest : List Char) (comma : Bool) :
    ((Row.entry k lead element rest).line.render comma).toList =
      lead ++ (element ++ ((if comma then [','] else []) ++
        (writtenTail (tailOf (String.ofList rest))).toList)) := by
  cases comma <;> simp [Row.line, Line.render, writtenTail]

/-- The gap that is written after an entry: its comma, its tail, and what follows its line. -/
def gapAfter (comma : Bool) (rest gap : List Char) : List Char :=
  (if comma then [','] else []) ++
    ((writtenTail (tailOf (String.ofList rest))).toList ++ '\n' :: gap)

section

variable {rest gap : List Char} (comma : Bool)

theorem after_comma : Mode.plain.after (if comma then [','] else []) = .plain := by
  cases comma <;> rfl

theorem after_tail_lineFeed :
    Mode.plain.after ((writtenTail (tailOf (String.ofList rest))).toList ++ ['\n']) =
      Mode.plain.after (rest ++ ['\n']) := by
  rw [Mode.after_append, after_writtenTail, after_tailOf, ← Mode.after_append]

theorem isGap_gapAfter (hrest : OnlyCommas .plain (rest ++ ['\n']))
    (hgap : OnlyCommas (Mode.plain.after (rest ++ ['\n'])) gap)
    (hend : (Mode.plain.after (rest ++ ['\n'])).after gap = .plain) :
    IsGap (gapAfter comma rest gap) := by
  have htail : OnlyCommas .plain ((writtenTail (tailOf (String.ofList rest))).toList ++ ['\n']) := by
    have h := onlyCommas_tailOf hrest
    rw [onlyCommas_append] at h ⊢
    rw [OnlyCommas, marks_writtenTail, after_writtenTail]
    exact h
  have hcomma : OnlyCommas .plain (if comma then [','] else []) := by cases comma <;> decide
  have hsplit : gapAfter comma rest gap = (if comma then [','] else []) ++
      (((writtenTail (tailOf (String.ofList rest))).toList ++ ['\n']) ++ gap) := by
    simp [gapAfter]
  constructor
  · rw [hsplit, Mode.after_append, after_comma, Mode.after_append, after_tail_lineFeed, hend]
  · rw [hsplit, onlyCommas_append, after_comma, onlyCommas_append, after_tail_lineFeed]
    exact ⟨hcomma, htail, hgap⟩

theorem commas_gapAfter :
    Mode.plain.commas (gapAfter comma rest gap) =
      comma.toNat + (Mode.plain.commas (tailOf (String.ofList rest)).toList +
        (Mode.plain.after (rest ++ ['\n'])).commas gap) := by
  have hsplit : gapAfter comma rest gap = (if comma then [','] else []) ++
      (((writtenTail (tailOf (String.ofList rest))).toList ++ ['\n']) ++ gap) := by
    simp [gapAfter]
  have hcomma : Mode.plain.commas (if comma then [','] else []) = comma.toNat := by
    cases comma <;> rfl
  rw [hsplit, Mode.commas_append, after_comma, Mode.commas_append, after_tail_lineFeed,
    commas_concat_lineFeed, hcomma, Mode.commas, marks_writtenTail]
  rfl

end

/-- Rows that are read one after another are written as elements and gaps. -/
theorem exists_spread (trailing : Bool) {closing : List Char} {rows : List Row} {m : Mode}
    (hruns : Runs m rows) (hclosing : OnlyCommas (through m rows) closing)
    (hend : (through m rows).after closing = .plain) :
    ∃ gap parts,
      (renderLines trailing (rows.map Row.line)).toList ++ closing = gap ++ spread parts ∧
      OnlyCommas m gap ∧ m.after gap = .plain ∧
      (∀ p ∈ parts, IsElement p.1) ∧ (∀ p ∈ parts, IsGap p.2) ∧
      parts.map Prod.fst = rows.filterMap Row.element? ∧
      m.commas gap = (looseFrom closing m rows).1 ∧
      (parts.map fun p => Mode.plain.commas p.2) =
        withWritten trailing (looseFrom closing m rows).2 := by
  induction rows generalizing m with
  | nil =>
      refine ⟨closing, [], ?_, hclosing, hend, ?_, ?_, rfl, rfl, rfl⟩
      · simp [renderLines, spread]
      · intro p hp; exact absurd hp List.not_mem_nil
      · intro p hp; exact absurd hp List.not_mem_nil
  | cons r rows ih =>
      obtain ⟨hreads, hrest⟩ := hruns
      obtain ⟨gap, parts, htext, hgap, hafter, hel, hgaps, helements, hcommas, hcounts⟩ :=
        ih hrest hclosing hend
      cases r with
      | plain t =>
          refine ⟨t ++ ['\n'] ++ gap, parts, ?_, ?_, ?_, hel, hgaps, helements, ?_, hcounts⟩
          · rw [List.map_cons, renderLines]
            simp only [String.toList_append, render_plain, List.append_assoc, htext]
            rfl
          · exact onlyCommas_append.mpr ⟨hreads, hgap⟩
          · rw [Mode.after_append]
            exact hafter
          · rw [Mode.commas_append, commas_concat_lineFeed, looseFrom, ← hcommas]
            rfl
      | entry k lead element rest =>
          have hnext := Row.next_entry hreads
          obtain ⟨hlead, hplain, helement, honly⟩ := hreads
          rw [hnext] at hgap hafter hcommas
          have hcomma : (trailing || !(looseFrom closing
              ((Row.entry k lead element rest).next m) rows).2.isEmpty) =
                (trailing || (rows.map Row.line).any (·.isEntry)) := by
            rw [isEmpty_looseFrom, Bool.not_not, List.any_map]
            simp [Function.comp_def]
          refine ⟨lead, (element, gapAfter (trailing || (rows.map Row.line).any (·.isEntry))
            rest gap) :: parts, ?_, hlead, hplain, ?_, ?_, ?_, rfl, ?_⟩
          · rw [List.map_cons, renderLines]
            simp only [String.toList_append, render_entry, List.append_assoc, htext, spread, gapAfter]
            rfl
          · intro p hp
            rcases List.mem_cons.mp hp with rfl | hp
            · exact helement
            · exact hel p hp
          · intro p hp
            rcases List.mem_cons.mp hp with rfl | hp
            · exact isGap_gapAfter _ honly hgap hafter
            · exact hgaps p hp
          · rw [List.map_cons, helements]
            rfl
          · rw [List.map_cons, hcounts, looseFrom, withWritten, hcomma, commas_gapAfter, hcommas,
              hnext]

/-- Rows that are read one after another, in brackets, are a bracketed text. -/
theorem exists_bracketed (trailing : Bool) {closing : List Char} {rows : List Row}
    (hruns : Runs .plain rows) (hclosing : OnlyCommas (through .plain rows) closing)
    (hend : (through .plain rows).after closing = .plain) :
    ∃ b : Bracketed,
      b.text = "[\n" ++ renderLines trailing (rows.map Row.line) ++
        String.ofList (closing ++ [']']) ∧
      b.elements = (rows.filterMap Row.element?).map String.ofList ∧
      (b.IsArray ↔ (looseFrom closing .plain rows).1 = 0 ∧
        NoneLoose trailing (looseFrom closing .plain rows).2) := by
  obtain ⟨gap, parts, htext, hgap, hafter, hel, hgaps, helements, hcommas, hcounts⟩ :=
    exists_spread trailing hruns hclosing hend
  have hopening : IsGap ('\n' :: gap) := ⟨hafter, hgap⟩
  refine ⟨⟨'\n' :: gap, parts, hopening, hel, hgaps⟩, ?_, ?_, ?_⟩
  · apply String.toList_inj.mp
    simp only [Bracketed.text, String.toList_ofList, String.toList_append, List.append_assoc]
    rw [List.cons_append, ← List.append_assoc gap, ← htext]
    simp
  · rw [Bracketed.elements, ← helements, List.map_map]
    rfl
  · unfold Bracketed.IsArray
    rw [Bracketed.counts, hcounts, spaced_withWritten, ← hcommas]
    rfl

end HookLint.Dependency.ArrayText

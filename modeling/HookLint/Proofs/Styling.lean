/-
Colour in the report for a terminal.

A styled text is a text with control sequences put between its characters.  `Styles` is that
relation, and it holds of texts put together from parts when it holds of the parts.  Deleting the
sequences undoes it (`StyledAs.deleteStyles_eq`), because the text itself has no escape character
that a sequence could start with.

A palette of control sequences puts nothing else into a report (`Palette.OnlyStyles`): fields are
padded and counts are written before styles are put around them.  So each part of the coloured
report is that part of the plain one, styled, and so is the whole (`styledAs_text`).
-/
import HookLint.Proofs.Lines
import HookLint.Report.Text

/-! ### Paths -/

namespace HookLint.Files.Path

open HookLint.Text

variable {root p : String} {c : Char}

theorem mem_of_mem_pieces {piece : String} (h : piece ∈ pieces p) (hc : c ∈ piece.toList) :
    c ∈ p.toList := by
  obtain ⟨cs, hcs, rfl⟩ := List.mem_map.mp h
  rw [String.toList_ofList] at hc
  exact mem_of_mem_cutAt hcs hc

theorem fst_mem_pieces {part : String × Option Component} (h : part ∈ parts p) :
    part.1 ∈ pieces p := by
  unfold parts at h
  split at h
  · contradiction
  · rename_i first rest hpieces
    rw [hpieces]
    rcases List.mem_cons.mp h with rfl | h
    · exact List.mem_cons_self
    · obtain ⟨piece, hpiece, rfl⟩ := List.mem_map.mp h
      exact List.mem_cons_of_mem _ hpiece

theorem eq_of_laterComponent? {piece name : String}
    (h : laterComponent? piece = some (.normal name)) : name = piece := by
  unfold laterComponent? at h
  split at h
  · contradiction
  · split at h <;> simp_all

theorem eq_of_firstComponent? {piece name : String}
    (h : firstComponent? p piece = some (.normal name)) : name = piece := by
  unfold firstComponent? at h
  split at h
  · split at h <;> simp_all
  · split at h
    · simp_all
    · exact eq_of_laterComponent? h

/-- The name of a component is a piece of the path. -/
theorem mem_pieces_of_mem_components {name : String} (h : .normal name ∈ components p) :
    name ∈ pieces p := by
  obtain ⟨part, hpart, hname⟩ := List.mem_filterMap.mp h
  have hpiece := fst_mem_pieces hpart
  unfold parts at hpart
  split at hpart
  · contradiction
  · rcases List.mem_cons.mp hpart with rfl | hpart
    · rwa [eq_of_firstComponent? hname]
    · obtain ⟨piece, -, rfl⟩ := List.mem_map.mp hpart
      rwa [eq_of_laterComponent? hname]

theorem dropComponents_sublist (n : Nat) (ps : List (String × Option Component)) :
    (dropComponents n ps).Sublist ps := by
  fun_induction dropComponents n ps with
  | case1 ps => exact List.dropWhile_sublist _
  | case2 => exact .slnil
  | case3 n piece ps ih => exact ih.cons _
  | case4 n piece component ps ih => exact ih.cons _

theorem trimParts_sublist (ps : List (String × Option Component)) :
    (trimParts ps).Sublist ps := by
  have h := (List.dropWhile_sublist (l := ps.reverse) (·.2.isNone)).reverse
  rwa [List.reverse_reverse] at h

theorem mem_joinParts {ps : List (String × Option Component)} (h : c ∈ (joinParts ps).toList) :
    c = '/' ∨ ∃ part ∈ ps, c ∈ part.1.toList := by
  unfold joinParts at h
  split at h
  · exact Or.inl (by simpa using h)
  · rcases mem_join h with h | ⟨piece, hpiece, h⟩
    · exact Or.inl (by simpa using h)
    · obtain ⟨part, hpart, rfl⟩ := List.mem_map.mp hpiece
      exact Or.inr ⟨part, hpart, h⟩

theorem mem_of_relativeTo? {shown : String} (h : relativeTo? root p = some shown)
    (hc : c ∈ shown.toList) : c = '/' ∨ c ∈ p.toList := by
  simp only [relativeTo?] at h
  split at h
  · injection h with h
    rw [← h] at hc
    refine (mem_joinParts hc).imp_right ?_
    rintro ⟨part, hpart, hmem⟩
    have hparts : part ∈ parts p := by
      have htrim := (trimParts_sublist _).subset hpart
      split at htrim
      · exact htrim
      · exact (dropComponents_sublist _ _).subset htrim
    exact mem_of_mem_pieces (fst_mem_pieces hparts) hmem
  · contradiction

theorem mem_of_fileName? {name : String} (h : fileName? p = some name) (hc : c ∈ name.toList) :
    c ∈ p.toList := by
  unfold fileName? at h
  split at h
  · rename_i last hlast
    injection h with h
    subst h
    exact mem_of_mem_pieces (mem_pieces_of_mem_components (List.mem_of_getLast? hlast)) hc
  · contradiction

/-- What is shown of a path has the path's characters and slashes. -/
theorem mem_of_mem_display (h : c ∈ (display root p).toList) : c = '/' ∨ c ∈ p.toList := by
  have hshown : ∀ {c : Char}, c ∈ ((relativeTo? root p).getD p).toList →
      c = '/' ∨ c ∈ p.toList := by
    intro c hc
    cases hrelative : relativeTo? root p with
    | none =>
        rw [hrelative] at hc
        exact Or.inr hc
    | some shown =>
        rw [hrelative] at hc
        exact mem_of_relativeTo? hrelative hc
  simp only [display] at h
  split at h
  · cases hname : fileName? p with
    | none =>
        rw [hname] at h
        exact hshown h
    | some name =>
        rw [hname] at h
        exact Or.inr (mem_of_fileName? hname h)
  · rw [String.toList_ofList] at h
    obtain ⟨d, hd, rfl⟩ := List.mem_map.mp h
    split
    · exact Or.inl rfl
    · exact hshown hd

end HookLint.Files.Path

namespace HookLint.Report

/-! ### Control sequences -/

/-- The character that control sequences start with. -/
def escape : Char := '\x1b'

/-- What follows a control sequence whose escape character has been read: a bracket, digits and
an `m`. -/
def afterSequence? : List Char → Option (List Char)
  | '[' :: cs =>
    match cs.takeWhile Char.isDigit, cs.dropWhile Char.isDigit with
    | _ :: _, 'm' :: rest => some rest
    | _, _ => none
  | _ => none

theorem length_lt_of_afterSequence? {cs rest : List Char} (h : afterSequence? cs = some rest) :
    rest.length < cs.length := by
  unfold afterSequence? at h
  split at h
  · rename_i cs
    split at h
    · rename_i hdrop
      have hsub := (List.dropWhile_sublist (l := cs) Char.isDigit).length_le
      rw [hdrop] at hsub
      injection h with h
      subst h
      simp only [List.length_cons] at hsub ⊢
      omega
    · contradiction
  · contradiction

/-- A text without its control sequences. -/
def deleteSequences : List Char → List Char
  | [] => []
  | c :: cs =>
    match _h : if c = escape then afterSequence? cs else none with
    | some rest => deleteSequences rest
    | none => c :: deleteSequences cs
termination_by cs => cs.length
decreasing_by
  · split at _h
    · have := length_lt_of_afterSequence? _h
      simp only [List.length_cons]
      omega
    · contradiction
  · simp

/-- A text without its control sequences. -/
def deleteStyles (s : String) : String := String.ofList (deleteSequences s.toList)

theorem deleteSequences_of_ne {c : Char} (hc : c ≠ escape) (cs : List Char) :
    deleteSequences (c :: cs) = c :: deleteSequences cs := by
  rw [deleteSequences]
  split <;> simp_all

theorem deleteSequences_escape {cs rest : List Char} (h : afterSequence? cs = some rest) :
    deleteSequences (escape :: cs) = deleteSequences rest := by
  rw [deleteSequences]
  split <;> simp_all

theorem afterSequence?_digits {digits : List Char} (hne : digits ≠ [])
    (hall : ∀ d ∈ digits, d.isDigit = true) (rest : List Char) :
    afterSequence? ('[' :: (digits ++ 'm' :: rest)) = some rest := by
  have htake : (digits ++ 'm' :: rest).takeWhile Char.isDigit = digits := by
    rw [List.takeWhile_append_of_pos hall, List.takeWhile_cons_of_neg (by decide), List.append_nil]
  have hdrop : (digits ++ 'm' :: rest).dropWhile Char.isDigit = 'm' :: rest := by
    rw [List.dropWhile_append_of_pos hall, List.dropWhile_cons_of_neg (by decide)]
  obtain ⟨d, ds, hdigits⟩ := List.exists_cons_of_ne_nil hne
  rw [afterSequence?, htake, hdrop, hdigits]
  rfl

/-! ### Styled texts -/

/-- The second text is the first with control sequences put in.  The first has no escape
character. -/
inductive Styles : List Char → List Char → Prop
  | nil : Styles [] []
  | char {c : Char} {plain styled : List Char} (hc : c ≠ escape) (h : Styles plain styled) :
      Styles (c :: plain) (c :: styled)
  | sequence {digits plain styled : List Char} (hne : digits ≠ [])
      (hall : ∀ d ∈ digits, d.isDigit = true) (h : Styles plain styled) :
      Styles plain (escape :: '[' :: (digits ++ 'm' :: styled))

namespace Styles

variable {plain styled plain' styled' : List Char}

theorem deleteSequences_eq (h : Styles plain styled) : deleteSequences styled = plain := by
  induction h with
  | nil => rw [deleteSequences]
  | char hc _ ih => rw [deleteSequences_of_ne hc, ih]
  | sequence hne hall _ ih => rw [deleteSequences_escape (afterSequence?_digits hne hall _), ih]

theorem escape_notMem (h : Styles plain styled) : escape ∉ plain := by
  induction h with
  | nil => exact List.not_mem_nil
  | char hc _ ih => exact List.not_mem_cons_of_ne_of_not_mem hc.symm ih
  | sequence _ _ _ ih => exact ih

theorem append (h : Styles plain styled) (h' : Styles plain' styled') :
    Styles (plain ++ plain') (styled ++ styled') := by
  induction h with
  | nil => exact h'
  | char hc _ ih => exact .char hc ih
  | sequence hne hall _ ih =>
      rw [List.cons_append, List.cons_append, List.append_assoc, List.cons_append]
      exact .sequence hne hall ih

theorem refl (h : escape ∉ plain) : Styles plain plain := by
  induction plain with
  | nil => exact .nil
  | cons c cs ih =>
      rw [List.mem_cons, not_or] at h
      exact .char (Ne.symm h.1) (ih h.2)

end Styles

/-- The second text is the first, styled. -/
def StyledAs (plain styled : String) : Prop := Styles plain.toList styled.toList

namespace StyledAs

variable {plain styled plain' styled' : String}

theorem append (h : StyledAs plain styled) (h' : StyledAs plain' styled') :
    StyledAs (plain ++ plain') (styled ++ styled') := by
  unfold StyledAs
  rw [String.toList_append, String.toList_append]
  exact Styles.append h h'

theorem refl {s : String} (h : escape ∉ s.toList) : StyledAs s s := Styles.refl h

theorem appendText (h : StyledAs plain styled) {x : String} (hx : escape ∉ x.toList) :
    StyledAs (plain ++ x) (styled ++ x) :=
  h.append (.refl hx)

/-- A text with a style put before it and one after it. -/
theorem appendStyled (h : StyledAs plain styled) {before after x : String}
    (hbefore : StyledAs "" before) (hx : escape ∉ x.toList) (hafter : StyledAs "" after) :
    StyledAs (plain ++ "" ++ x ++ "") (styled ++ before ++ x ++ after) :=
  ((h.append hbefore).appendText hx).append hafter

theorem join {α : Type} {plain styled : α → String} {l : List α}
    (h : ∀ a ∈ l, StyledAs (plain a) (styled a)) :
    StyledAs (String.join (l.map plain)) (String.join (l.map styled)) := by
  induction l with
  | nil => exact .nil
  | cons a l ih =>
      have hrest := ih fun b hb => h b (List.mem_cons_of_mem _ hb)
      simpa using (h a List.mem_cons_self).append hrest

theorem deleteStyles_eq (h : StyledAs plain styled) : deleteStyles styled = plain := by
  rw [deleteStyles, Styles.deleteSequences_eq h, String.ofList_toList]

theorem sequence {style : String} (hne : style.toList ≠ [])
    (hall : style.toList.all Char.isDigit = true) : StyledAs "" (Palette.sequence style) := by
  have hsequence : (Palette.sequence style).toList =
      escape :: '[' :: (style.toList ++ 'm' :: []) := by
    simp [Palette.sequence, escape]
  unfold StyledAs
  rw [hsequence]
  exact .sequence hne (List.all_eq_true.mp hall) .nil

end StyledAs

/-! ### What a palette is laid over -/

theorem escape_notMem_repr (n : Nat) : escape ∉ (Nat.repr n).toList := by
  intro h
  rw [Nat.toList_repr] at h
  have hdigit := Nat.isDigit_of_mem_toDigits (by decide) (by decide) h
  contradiction

theorem escape_notMem_append {a b : String} (ha : escape ∉ a.toList) (hb : escape ∉ b.toList) :
    escape ∉ (a ++ b).toList := by
  rw [String.toList_append, List.mem_append, not_or]
  exact ⟨ha, hb⟩

theorem escape_notMem_padding (width : Nat) (s : String) : escape ∉ (padding width s).toList := by
  intro h
  rw [padding, String.toList_ofList, List.mem_replicate] at h
  exact absurd h.2 (by decide)

theorem escape_notMem_padLeft (width : Nat) {s : String} (h : escape ∉ s.toList) :
    escape ∉ (padLeft width s).toList :=
  escape_notMem_append (escape_notMem_padding width s) h

theorem escape_notMem_padRight (width : Nat) {s : String} (h : escape ∉ s.toList) :
    escape ∉ (padRight width s).toList :=
  escape_notMem_append h (escape_notMem_padding width s)

theorem escape_notMem_name (s : Severity) : escape ∉ s.name.toList := by
  cases s <;> decide

theorem escape_notMem_join {sep : String} {parts : List String} (hsep : escape ∉ sep.toList)
    (hparts : ∀ part ∈ parts, escape ∉ part.toList) : escape ∉ (Text.join sep parts).toList := by
  intro h
  rcases Text.mem_join h with h | ⟨part, hpart, h⟩
  · exact hsep h
  · exact hparts part hpart h

theorem escape_notMem_display {root path : String} (h : escape ∉ path.toList) :
    escape ∉ (Files.Path.display root path).toList := by
  intro hmem
  rcases Files.Path.mem_of_mem_display hmem with heq | hmem
  · exact absurd heq (by decide)
  · exact h hmem

theorem escape_notMem_countParts (counts : Counts) :
    ∀ part ∈ Palette.countParts counts, escape ∉ part.toList := by
  intro part hpart
  obtain ⟨s, -, rfl⟩ := List.mem_map.mp hpart
  exact escape_notMem_append (escape_notMem_append (escape_notMem_repr _) (by decide))
    (escape_notMem_name s)

end HookLint.Report

/-! ### Reports -/

namespace HookLint

/-- The texts a finding is shown with. -/
def Diagnostic.texts (d : Diagnostic) : List String :=
  d.message :: d.rule :: (d.suggestion.map (·.description)).toList

/-- The texts the findings of a file are shown with. -/
def FileReport.texts (f : FileReport) : List String :=
  f.path :: f.error.toList ++ f.diagnostics.flatMap Diagnostic.texts

end HookLint

namespace HookLint.Report

namespace Palette

/-- All that a palette puts into a text are control sequences. -/
structure OnlyStyles (p : Palette) : Prop where
  bold : StyledAs "" p.bold
  dim : StyledAs "" p.dim
  reset : StyledAs "" p.reset
  underline : StyledAs "" p.underline
  green : StyledAs "" p.green
  red : StyledAs "" p.red
  severity : ∀ s, StyledAs "" (p.severity s)

theorem onlyStyles_styled : OnlyStyles styled where
  bold := .sequence (by decide) (by decide)
  dim := .sequence (by decide) (by decide)
  reset := .sequence (by decide) (by decide)
  underline := .sequence (by decide) (by decide)
  green := .sequence (by decide) (by decide)
  red := .sequence (by decide) (by decide)
  severity s := by cases s <;> exact .sequence (by decide) (by decide)

variable {p : Palette}

theorem OnlyStyles.diagnostic (hp : p.OnlyStyles) {d : Diagnostic}
    (hd : ∀ text ∈ d.texts, escape ∉ text.toList) :
    StyledAs (plain.diagnostic d) (p.diagnostic d) := by
  have hgap : escape ∉ "  ".toList := by decide
  have hmessage : escape ∉ d.message.toList := hd _ List.mem_cons_self
  have hrule : escape ∉ d.rule.toList := hd _ (List.mem_cons_of_mem _ List.mem_cons_self)
  have hposition := escape_notMem_append
    (escape_notMem_append (escape_notMem_repr d.span.startLine) (by decide : escape ∉ ":".toList))
    (escape_notMem_repr d.span.startColumn)
  refine StyledAs.append ?_ ?_
  · exact (StyledAs.refl hgap)
      |>.appendStyled hp.dim (escape_notMem_padLeft 7 hposition) hp.reset
      |>.appendText hgap
      |>.appendStyled (hp.severity _) (escape_notMem_padRight 8 (escape_notMem_name _)) hp.reset
      |>.appendText hgap
      |>.appendText hmessage
      |>.appendText hgap
      |>.appendStyled hp.dim hrule hp.reset
      |>.appendText (by decide)
  · cases hsuggestion : d.suggestion with
    | none => exact .refl (by decide)
    | some s =>
        have hdescription : escape ∉ s.description.toList := by
          refine hd _ (List.mem_cons_of_mem _ (List.mem_cons_of_mem _ ?_))
          rw [hsuggestion]
          exact List.mem_cons_self
        exact (StyledAs.refl (by decide : escape ∉ "           ".toList))
          |>.appendStyled hp.green (by decide) hp.reset
          |>.appendText (by decide)
          |>.appendText hdescription
          |>.appendText (by decide)

theorem OnlyStyles.file (hp : p.OnlyStyles) (root : String) {f : FileReport}
    (hf : ∀ text ∈ f.texts, escape ∉ text.toList) :
    StyledAs (plain.file root f) (p.file root f) := by
  have hpath : escape ∉ f.path.toList := hf _ (by simp [FileReport.texts])
  have hfindings : ∀ d ∈ f.diagnostics, StyledAs (plain.diagnostic d) (p.diagnostic d) := by
    intro d hd
    refine hp.diagnostic fun text htext => hf text ?_
    exact List.mem_append_right _ (List.mem_flatMap.mpr ⟨d, hd, htext⟩)
  unfold Palette.file
  split
  · exact .refl (by decide)
  · refine StyledAs.append (StyledAs.append ?_ ?_) (.join hfindings)
    · exact (StyledAs.refl (by decide : escape ∉ "\n".toList))
        |>.appendStyled hp.underline (escape_notMem_display hpath) hp.reset
        |>.appendText (by decide)
    · cases herror : f.error with
      | none => exact .refl (by decide)
      | some e =>
          have he : escape ∉ e.toList := hf e (by simp [FileReport.texts, herror])
          exact (StyledAs.refl (by decide : escape ∉ "  ".toList))
            |>.appendStyled hp.red (by decide) hp.reset
            |>.appendText (by decide)
            |>.appendText he
            |>.appendText (by decide)

theorem OnlyStyles.summary (hp : p.OnlyStyles) (counts : Counts) (files : Nat) :
    StyledAs (plain.summary counts files) (p.summary counts files) := by
  have hbreak : escape ∉ "\n".toList := by decide
  unfold Palette.summary
  split
  · exact (StyledAs.refl hbreak)
      |>.appendStyled hp.green (by decide) hp.reset
      |>.appendText (by decide)
      |>.appendText (escape_notMem_repr files)
      |>.appendText (by decide)
  · have hproblems :
        escape ∉ (if counts.total = 1 then " problem (" else " problems (").toList := by
      split <;> decide
    have hcounts := escape_notMem_join (by decide : escape ∉ ", ".toList)
      (escape_notMem_countParts counts)
    refine StyledAs.append ?_ ?_
    · exact (((StyledAs.refl hbreak).append hp.bold).append hp.red)
        |>.appendText (by decide)
        |>.appendText (escape_notMem_repr counts.total)
        |>.appendText hproblems
        |>.appendText hcounts
        |>.appendText (by decide)
        |>.append hp.reset
        |>.appendText (by decide)
        |>.appendText (escape_notMem_repr files)
        |>.appendText (by decide)
    · split
      · exact .refl (by decide)
      · exact (((StyledAs.refl (by decide : escape ∉ "  ".toList)).append hp.dim)
          |>.appendText (escape_notMem_repr counts.fixable)
          |>.appendText (by decide)
          |>.append hp.reset
          |>.appendText hbreak)

theorem escape_mem_summary (counts : Counts) (files : Nat) :
    escape ∈ (styled.summary counts files).toList := by
  have hreset : escape ∈ styled.reset.toList := by decide
  unfold Palette.summary
  split <;> simp [hreset]

end Palette

/-- The coloured report is the plain one, styled. -/
theorem styledAs_text (r : CheckReport)
    (hr : ∀ f ∈ r.files, ∀ text ∈ f.texts, escape ∉ text.toList) :
    StyledAs (text false r) (text true r) := by
  refine StyledAs.append (.join fun f hf => ?_) ?_
  · exact Palette.onlyStyles_styled.file r.root (hr f hf)
  · exact Palette.onlyStyles_styled.summary r.summary r.filesAnalyzed

/-- Colour changes only styling: without its control sequences the coloured report is the plain
one.  The plain report has no escape character that a sequence could start with, and the coloured
one has some. -/
theorem deleteStyles_text (r : CheckReport)
    (hr : ∀ f ∈ r.files, ∀ text ∈ f.texts, escape ∉ text.toList) :
    deleteStyles (text true r) = text false r ∧
      escape ∉ (text false r).toList ∧ escape ∈ (text true r).toList := by
  have hstyled := styledAs_text r hr
  refine ⟨hstyled.deleteStyles_eq, hstyled.escape_notMem, ?_⟩
  rw [text, String.toList_append]
  exact List.mem_append_right _ (Palette.escape_mem_summary r.summary r.filesAnalyzed)

/-- A finding with a suggestion, and a file that could not be read. -/
def twoFileReport : CheckReport :=
  .ofFiles "/repo"
    [{ path := "/repo/src/App.jsx"
       diagnostics := [{
         rule := "exhaustive-deps", kind := .dependencyMismatch, hookName := "useEffect"
         missing := ["count"], unnecessary := [], duplicate := []
         message := "React Hook useEffect has a missing dependency: 'count'."
         severity := .medium, span := ⟨40, 42, 4, 6, 4, 8⟩
         suggestion := some {
           description := "Update the dependencies array to be: [count]"
           replacement := { span := ⟨40, 42, 4, 6, 4, 8⟩, text := "[count]" } } }]
       error := none },
     { path := "/repo/src/Broken.ts", diagnostics := [], error := some "Failed to read" }]

theorem deleteStyles_text_twoFiles :
    (∀ f ∈ twoFileReport.files, ∀ text ∈ f.texts, escape ∉ text.toList) ∧
      deleteStyles (text true twoFileReport) = text false twoFileReport ∧
      text true twoFileReport ≠ text false twoFileReport := by
  have hr : ∀ f ∈ twoFileReport.files, ∀ text ∈ f.texts, escape ∉ text.toList := by decide
  obtain ⟨hdelete, hplain, hcoloured⟩ := deleteStyles_text twoFileReport hr
  exact ⟨hr, hdelete, fun heq => hplain (heq ▸ hcoloured)⟩

end HookLint.Report

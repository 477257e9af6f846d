/-
Array literals as texts.

Between the brackets of an array stand its elements, and around them gaps: blanks,
comments and commas.  What is a comment is told by reading the text one character at a
time.  `Mode` is what the reader has to remember, and `marks` are the characters that
count for it: all but the blanks and the comments.

A bracketed text alternates gaps and elements, with any number of commas in a gap.  It is
an array literal without holes when there is one comma between neighbouring elements, none
before the first, and at most one after the last.  Both are facts about the text: two ways to
find the same elements in it find the same number of commas in each gap
(`commas_eq_of_text_eq`), and it is an array literal in at most one way (`eq_of_text_eq`).
-/
import HookLint.Dependency.ArrayText
import HookLint.Proofs.Slices
import Mathlib.Data.List.TakeWhile

namespace HookLint.Dependency.ArrayText

open HookLint.Text

/-! ### Reading a text -/

/-- What a reader of a text has to remember: that the last character was a slash, that it is
in a comment, and in a block comment that the last character was a star. -/
inductive Mode where
  | plain
  | slash
  | line
  | block
  | star
  deriving DecidableEq, Repr

/-- The characters that end a line comment. -/
def endsLine (c : Char) : Bool :=
  c == '\n' || c == '\r' || c == '\u2028' || c == '\u2029'

namespace Mode

/-- The mode after one more character. -/
def next : Mode → Char → Mode
  | plain, c => if c = '/' then slash else plain
  | slash, c => if c = '/' then line else if c = '*' then block else plain
  | line, c => if endsLine c then plain else line
  | block, c => if c = '*' then star else block
  | star, c => if c = '/' then plain else if c = '*' then star else block

/-- The characters that one more character adds to those that count.  A slash waits for the
next character to tell whether it opens a comment. -/
def emit : Mode → Char → List Char
  | plain, c => if c = '/' || isBlank c then [] else [c]
  | slash, c =>
    if c = '/' || c = '*' then [] else if isBlank c then ['/'] else ['/', c]
  | _, _ => []

/-- The mode after a text. -/
def after (m : Mode) (cs : List Char) : Mode := cs.foldl next m

/-- The characters of a text that are neither blank nor in a comment. -/
def marks : Mode → List Char → List Char
  | _, [] => []
  | m, c :: cs => m.emit c ++ (m.next c).marks cs

/-- The number of commas of a text, those in comments apart. -/
def commas (m : Mode) (cs : List Char) : Nat := (m.marks cs).count ','

variable {m : Mode}

@[simp] theorem after_nil : m.after [] = m := rfl

@[simp] theorem after_cons (c : Char) (cs : List Char) :
    m.after (c :: cs) = (m.next c).after cs := rfl

theorem after_append (xs ys : List Char) : m.after (xs ++ ys) = (m.after xs).after ys :=
  List.foldl_append

@[simp] theorem marks_nil : m.marks [] = [] := rfl

@[simp] theorem marks_cons (c : Char) (cs : List Char) :
    m.marks (c :: cs) = m.emit c ++ (m.next c).marks cs := rfl

theorem marks_append (xs ys : List Char) :
    m.marks (xs ++ ys) = m.marks xs ++ (m.after xs).marks ys := by
  induction xs generalizing m with
  | nil => rfl
  | cons x xs ih => simp [ih]

@[simp] theorem commas_nil : m.commas [] = 0 := rfl

theorem commas_append (xs ys : List Char) :
    m.commas (xs ++ ys) = m.commas xs + (m.after xs).commas ys := by
  unfold commas
  rw [marks_append, List.count_append]

/-! ### Blanks and commas outside comments -/

theorem next_plain_of_isBlank {c : Char} (h : isBlank c = true) : plain.next c = plain := by
  have hc : c ≠ '/' := by rintro rfl; exact absurd h (by decide)
  rw [next, if_neg hc]

theorem emit_plain_of_isBlank {c : Char} (h : isBlank c = true) : plain.emit c = [] := by
  simp [emit, h]

@[simp] theorem next_plain_comma : plain.next ',' = plain := rfl

@[simp] theorem emit_plain_comma : plain.emit ',' = [','] := rfl

/-- Leading blanks are passed over. -/
theorem after_dropWhile_isBlank (cs : List Char) :
    plain.after (cs.dropWhile isBlank) = plain.after cs := by
  induction cs with
  | nil => rfl
  | cons c cs ih =>
      rw [List.dropWhile_cons]
      split
      · rename_i h
        rw [ih, after_cons, next_plain_of_isBlank h]
      · rfl

theorem marks_dropWhile_isBlank (cs : List Char) :
    plain.marks (cs.dropWhile isBlank) = plain.marks cs := by
  induction cs with
  | nil => rfl
  | cons c cs ih =>
      rw [List.dropWhile_cons]
      split
      · rename_i h
        rw [ih, marks_cons, next_plain_of_isBlank h, emit_plain_of_isBlank h]
        rfl
      · rfl

theorem after_of_isBlank {cs : List Char} (h : ∀ c ∈ cs, isBlank c = true) :
    plain.after cs = plain := by
  rw [← after_dropWhile_isBlank, List.dropWhile_eq_nil_iff.mpr h]
  rfl

theorem marks_of_isBlank {cs : List Char} (h : ∀ c ∈ cs, isBlank c = true) :
    plain.marks cs = [] := by
  rw [← marks_dropWhile_isBlank, List.dropWhile_eq_nil_iff.mpr h]
  rfl

end Mode

/-! ### Gaps and elements -/

/-- Nothing of a text counts but commas. -/
def OnlyCommas (m : Mode) (cs : List Char) : Prop := ∀ c ∈ m.marks cs, c = ','

instance (m : Mode) (cs : List Char) : Decidable (OnlyCommas m cs) :=
  decidable_of_iff ((m.marks cs).all (· = ',') = true) (by simp [OnlyCommas])

theorem OnlyCommas.marks_eq {m : Mode} {cs : List Char} (h : OnlyCommas m cs) :
    m.marks cs = List.replicate (m.commas cs) ',' := by
  have hall := List.eq_replicate_of_mem h
  rw [Mode.commas, hall]
  simp

theorem onlyCommas_append {m : Mode} {xs ys : List Char} :
    OnlyCommas m (xs ++ ys) ↔ OnlyCommas m xs ∧ OnlyCommas (m.after xs) ys := by
  unfold OnlyCommas
  rw [Mode.marks_append]
  simp only [List.mem_append, or_imp, forall_and]

theorem onlyCommas_of_isBlank {cs : List Char} (h : ∀ c ∈ cs, isBlank c = true) :
    OnlyCommas .plain cs := by
  intro c hc
  rw [Mode.marks_of_isBlank h] at hc
  exact absurd hc List.not_mem_nil

/-- The text between two elements: blanks, whole comments and commas. -/
structure IsGap (cs : List Char) : Prop where
  closed : Mode.plain.after cs = .plain
  onlyCommas : OnlyCommas .plain cs

instance (cs : List Char) : Decidable (IsGap cs) :=
  decidable_of_iff (Mode.plain.after cs = .plain ∧ OnlyCommas .plain cs)
    ⟨fun h => ⟨h.1, h.2⟩, fun h => ⟨h.closed, h.onlyCommas⟩⟩

/-- The text of an element.  It has no comma and no comment, and blanks only inside. -/
structure IsElement (cs : List Char) : Prop where
  ne_nil : cs ≠ []
  head : ∀ c ∈ cs.head?, isBlank c = false
  last : ∀ c ∈ cs.getLast?, isBlank c = false ∧ c ≠ '/'
  noComma : ',' ∉ cs
  noLine : ¬ ['/', '/'] <:+: cs
  noBlock : ¬ ['/', '*'] <:+: cs

/-- A text without blanks, commas and slashes, such as a path of names, is an element. -/
theorem isElement_of_all {cs : List Char} (hne : cs ≠ [])
    (hall : cs.all (fun c => !isBlank c && c != ',' && c != '/') = true) : IsElement cs := by
  have h : ∀ c ∈ cs, isBlank c = false ∧ c ≠ ',' ∧ c ≠ '/' := by
    intro c hc
    simpa [and_assoc] using List.all_eq_true.mp hall c hc
  exact
    { ne_nil := hne
      head := fun c hc => (h c (List.mem_of_mem_head? hc)).1
      last := fun c hc =>
        ⟨(h c (List.mem_of_mem_getLast? hc)).1, (h c (List.mem_of_mem_getLast? hc)).2.2⟩
      noComma := fun hc => (h _ hc).2.1 rfl
      noLine := fun hc => (h _ (hc.subset List.mem_cons_self)).2.2 rfl
      noBlock := fun hc => (h _ (hc.subset List.mem_cons_self)).2.2 rfl }

/-- A text that opens no comment is read as it stands, less the blanks. -/
theorem scan_of_noComment {cs : List Char} (hlast : ∀ c ∈ cs.getLast?, c ≠ '/')
    (hline : ¬ ['/', '/'] <:+: cs) (hblock : ¬ ['/', '*'] <:+: cs) :
    Mode.plain.after cs = .plain ∧ Mode.plain.marks cs = cs.filter fun c => !isBlank c := by
  induction hn : cs.length using Nat.strong_induction_on generalizing cs with
  | _ n ih =>
      cases cs with
      | nil => exact ⟨rfl, rfl⟩
      | cons c cs =>
          by_cases hc : c = '/'
          · subst hc
            -- the slash waits for the next character, so two are read at once
            cases cs with
            | nil => exact absurd rfl (hlast '/' rfl)
            | cons d cs =>
                have hd : d ≠ '/' ∧ d ≠ '*' := by
                  constructor
                  · rintro rfl; exact hline ⟨[], cs, rfl⟩
                  · rintro rfl; exact hblock ⟨[], cs, rfl⟩
                have htail : cs <:+: '/' :: d :: cs := (List.suffix_append ['/', d] cs).isInfix
                obtain ⟨hafter, hmarks⟩ := ih cs.length (by rw [← hn, List.length_cons, List.length_cons]; omega)
                  (by
                    intro c' hc'
                    refine hlast c' ?_
                    cases cs with
                    | nil => contradiction
                    | cons e cs => simpa using hc')
                  (fun hi => hline (hi.trans htail)) (fun hi => hblock (hi.trans htail)) rfl
                have hnext : Mode.slash.next d = .plain := by
                  rw [Mode.next, if_neg hd.1, if_neg hd.2]
                rw [Mode.after_cons, Mode.after_cons, Mode.marks_cons, Mode.marks_cons]
                simp only [show Mode.plain.next '/' = .slash from rfl, hnext, hafter, hmarks,
                  true_and]
                by_cases hb : isBlank d = true <;>
                  simp [Mode.emit, hd.1, hd.2, hb, show isBlank '/' = false from rfl]
          · have htail : cs <:+: c :: cs := (List.suffix_cons c cs).isInfix
            obtain ⟨hafter, hmarks⟩ := ih cs.length (by rw [← hn]; simp)
              (by
                intro c' hc'
                refine hlast c' ?_
                cases cs with
                | nil => contradiction
                | cons e cs => simpa using hc')
              (fun hi => hline (hi.trans htail)) (fun hi => hblock (hi.trans htail)) rfl
            have hnext : Mode.plain.next c = .plain := by rw [Mode.next, if_neg hc]
            rw [Mode.after_cons, Mode.marks_cons, hnext, hafter, hmarks]
            refine ⟨rfl, ?_⟩
            by_cases hb : isBlank c = true <;> simp [Mode.emit, hc, hb]

theorem IsElement.closed {cs : List Char} (h : IsElement cs) : Mode.plain.after cs = .plain :=
  (scan_of_noComment (fun c hc => (h.last c hc).2) h.noLine h.noBlock).1

theorem IsElement.marks {cs : List Char} (h : IsElement cs) :
    Mode.plain.marks cs = cs.filter fun c => !isBlank c :=
  (scan_of_noComment (fun c hc => (h.last c hc).2) h.noLine h.noBlock).2

/-- What counts of an element starts with something else than a comma. -/
theorem IsElement.marks_eq_cons {cs : List Char} (h : IsElement cs) :
    ∃ c rest, Mode.plain.marks cs = c :: rest ∧ c ≠ ',' := by
  obtain ⟨c, cs, rfl⟩ := List.exists_cons_of_ne_nil h.ne_nil
  have hb : isBlank c = false := h.head c rfl
  refine ⟨c, cs.filter fun c => !isBlank c, by rw [h.marks]; simp [hb], ?_⟩
  rintro rfl
  exact h.noComma List.mem_cons_self

/-! ### Bracketed texts -/

/-- Elements, each with the gap that follows it, one after the other. -/
def spread : List (List Char × List Char) → List Char
  | [] => []
  | (element, gap) :: parts => element ++ (gap ++ spread parts)

/-- The ranges of the elements, the first of which starts at an offset. -/
def rangesFrom : Nat → List (List Char × List Char) → List ByteRange
  | _, [] => []
  | offset, (element, gap) :: parts =>
    ⟨offset, offset + bytes element⟩ ::
      rangesFrom (offset + bytes element + bytes gap) parts

/-- A text in brackets: a gap, and elements, each followed by a gap. -/
structure Bracketed where
  opening : List Char
  parts : List (List Char × List Char)
  opening_gap : IsGap opening
  isElement : ∀ p ∈ parts, IsElement p.1
  isGap : ∀ p ∈ parts, IsGap p.2

/-- One comma after every element but the last, and at most one after the last. -/
def Spaced : List Nat → Prop
  | [] => True
  | [n] => n ≤ 1
  | n :: ns => n = 1 ∧ Spaced ns

namespace Bracketed

def text (b : Bracketed) : String :=
  String.ofList ('[' :: (b.opening ++ (spread b.parts ++ [']'])))

/-- The ranges of the elements in the text. -/
def ranges (b : Bracketed) : List ByteRange := rangesFrom (1 + bytes b.opening) b.parts

def elements (b : Bracketed) : List String := b.parts.map fun p => String.ofList p.1

/-- The number of commas after each element. -/
def counts (b : Bracketed) : List Nat := b.parts.map fun p => Mode.plain.commas p.2

/-- An array literal: no comma before the first element, one between neighbours, and perhaps
one after the last. -/
def IsArray (b : Bracketed) : Prop := Mode.plain.commas b.opening = 0 ∧ Spaced b.counts

end Bracketed

/-- The text is an array literal, and its elements in order are these. -/
def ReadsAs (text : String) (elements : List String) : Prop :=
  (∃ b : Bracketed, b.IsArray ∧ b.text = text) ∧
    ∀ b : Bracketed, b.IsArray → b.text = text → b.elements = elements

/-! ### The commas are a fact about the text -/

/-- Commas before something else are counted. -/
theorem replicate_comma_append_inj {n k : Nat} {c : Char} (hc : c ≠ ',') {xs ys : List Char}
    (h : List.replicate n ',' ++ c :: xs = List.replicate k ',' ++ c :: ys) :
    n = k ∧ xs = ys := by
  induction n generalizing k with
  | zero =>
      cases k with
      | zero => simpa using h
      | succ k => simp [List.replicate_succ, hc] at h
  | succ n ih =>
      cases k with
      | zero => simp [List.replicate_succ, hc.symm] at h
      | succ k => simpa [List.replicate_succ] using ih (by simpa [List.replicate_succ] using h)

/-- What counts of the elements with their gaps. -/
def markedParts : List (List Char × List Char) → List Char
  | [] => [']']
  | (element, gap) :: parts =>
    Mode.plain.marks element ++
      (List.replicate (Mode.plain.commas gap) ',' ++ markedParts parts)

theorem marks_spread {parts : List (List Char × List Char)}
    (he : ∀ p ∈ parts, IsElement p.1) (hg : ∀ p ∈ parts, IsGap p.2) :
    Mode.plain.marks (spread parts ++ [']']) = markedParts parts := by
  induction parts with
  | nil => rfl
  | cons p parts ih =>
      obtain ⟨element, gap⟩ := p
      have hel := he _ List.mem_cons_self
      have hgap := hg _ List.mem_cons_self
      have hrest := ih (fun p hp => he p (List.mem_cons_of_mem _ hp))
        (fun p hp => hg p (List.mem_cons_of_mem _ hp))
      rw [spread, markedParts, List.append_assoc, List.append_assoc, Mode.marks_append,
        hel.closed, Mode.marks_append, hgap.closed, hrest, hgap.onlyCommas.marks_eq]

theorem Bracketed.marks_text (b : Bracketed) :
    Mode.plain.marks b.text.toList =
      '[' :: (List.replicate (Mode.plain.commas b.opening) ',' ++ markedParts b.parts) := by
  rw [Bracketed.text, String.toList_ofList, Mode.marks_cons]
  have hemit : Mode.plain.emit '[' = ['['] := by decide
  have hnext : Mode.plain.next '[' = .plain := by decide
  rw [hemit, hnext, Mode.marks_append, b.opening_gap.closed,
    marks_spread b.isElement b.isGap, b.opening_gap.onlyCommas.marks_eq]
  rfl

/-- Equal elements with their gaps have equal numbers of commas, when what counts of them
is equal. -/
theorem commas_eq_of_markedParts_eq {n k : Nat} {parts parts' : List (List Char × List Char)}
    (he : ∀ p ∈ parts, IsElement p.1) (he' : ∀ p ∈ parts', IsElement p.1)
    (helements : parts.map Prod.fst = parts'.map Prod.fst)
    (h : List.replicate n ',' ++ markedParts parts = List.replicate k ',' ++ markedParts parts') :
    n = k ∧ (parts.map fun p => Mode.plain.commas p.2) =
      parts'.map fun p => Mode.plain.commas p.2 := by
  induction parts generalizing n k parts' with
  | nil =>
      obtain rfl : parts' = [] := by simpa using helements.symm
      obtain ⟨hn, -⟩ := replicate_comma_append_inj (by decide) h
      exact ⟨hn, rfl⟩
  | cons p parts ih =>
      cases parts' with
      | nil => simp at helements
      | cons p' parts' =>
          simp only [List.map_cons, List.cons.injEq] at helements
          obtain ⟨hp, hparts⟩ := helements
          obtain ⟨c, rest, hc, hne⟩ := (he p List.mem_cons_self).marks_eq_cons
          rw [markedParts, markedParts, ← hp, hc, List.cons_append, List.cons_append] at h
          obtain ⟨hn, hrest⟩ := replicate_comma_append_inj hne h
          obtain ⟨hcount, htail⟩ := ih (fun q hq => he q (List.mem_cons_of_mem _ hq))
            (fun q hq => he' q (List.mem_cons_of_mem _ hq)) hparts (List.append_cancel_left hrest)
          exact ⟨hn, by simp [hcount, htail]⟩

/-- Two ways to find the same elements in the same text find the same commas. -/
theorem Bracketed.commas_eq_of_text_eq {b b' : Bracketed} (htext : b.text = b'.text)
    (helements : b.elements = b'.elements) :
    Mode.plain.commas b.opening = Mode.plain.commas b'.opening ∧ b.counts = b'.counts := by
  have hmarks := b.marks_text
  rw [htext, b'.marks_text, List.cons.injEq] at hmarks
  refine commas_eq_of_markedParts_eq b.isElement b'.isElement ?_ hmarks.2.symm
  have hlists := congrArg (List.map String.toList) helements
  simpa [Bracketed.elements, Function.comp_def] using hlists

/-! ### An array literal is read in one way -/

/-- The text starts with a character of an element, or with the closing bracket. -/
def Starts (cs : List Char) : Prop :=
  ∃ c rest, cs = c :: rest ∧ isBlank c = false ∧ c ≠ ',' ∧
    (c = '/' → ∃ d ds, rest = d :: ds ∧ d ≠ '/' ∧ d ≠ '*')

theorem starts_spread {parts : List (List Char × List Char)} (he : ∀ p ∈ parts, IsElement p.1) :
    Starts (spread parts ++ [']']) := by
  cases parts with
  | nil => exact ⟨']', [], rfl, rfl, by decide, fun h => absurd h (by decide)⟩
  | cons p parts =>
      obtain ⟨element, gap⟩ := p
      have h := he _ List.mem_cons_self
      cases element with
      | nil => exact absurd rfl h.ne_nil
      | cons c element =>
          refine ⟨c, _, rfl, h.head c rfl, ?_, ?_⟩
          · rintro rfl
            exact h.noComma List.mem_cons_self
          · rintro rfl
            cases element with
            | nil => exact absurd rfl (h.last '/' rfl).2
            | cons d element =>
                refine ⟨d, _, rfl, ?_, ?_⟩
                · rintro rfl
                  exact h.noLine ⟨[], element, rfl⟩
                · rintro rfl
                  exact h.noBlock ⟨[], element, rfl⟩

/-- No gap begins where an element does. -/
theorem eq_nil_of_starts {gap rest : List Char} (hstarts : Starts (gap ++ rest))
    (honly : OnlyCommas .plain gap) (hclosed : Mode.plain.after gap = .plain) : gap = [] := by
  obtain ⟨c, cs, hcs, hblank, hcomma, hslash⟩ := hstarts
  cases gap with
  | nil => rfl
  | cons c' gap =>
      obtain ⟨rfl, hgap⟩ := List.cons.inj hcs
      by_cases hc : c' = '/'
      · obtain ⟨d, ds, hds, hline, hblock⟩ := hslash hc
        subst hc
        cases gap with
        | nil => exact absurd hclosed (by decide)
        | cons d' gap =>
            obtain ⟨rfl, -⟩ := List.cons.inj (hgap.trans hds)
            have hmem : '/' ∈ Mode.plain.marks ('/' :: d' :: gap) := by
              rw [Mode.marks_cons, Mode.marks_cons]
              by_cases hb : isBlank d' = true <;>
                simp [show Mode.plain.next '/' = .slash from rfl, Mode.emit, hline, hblock, hb]
            exact absurd (honly '/' hmem) (by decide)
      · have hmem : c' ∈ Mode.plain.marks (c' :: gap) := by
          rw [Mode.marks_cons]
          simp [Mode.emit, hc, hblank]
        exact absurd (honly c' hmem) hcomma

theorem gap_eq_of_append_eq {gap gap' rest rest' : List Char} (hgap : IsGap gap)
    (hgap' : IsGap gap') (hrest : Starts rest) (hrest' : Starts rest')
    (h : gap ++ rest = gap' ++ rest') : gap = gap' ∧ rest = rest' := by
  have hmore {g g' x r r' : List Char} (hg : IsGap g) (hg' : IsGap g') (hr : Starts r)
      (hgx : g' = g ++ x) (hrx : r = x ++ r') : g = g' ∧ r = r' := by
    subst hgx hrx
    have honly := (onlyCommas_append.mp hg'.onlyCommas).2
    have hclosed := hg'.closed
    rw [hg.closed] at honly
    rw [Mode.after_append, hg.closed] at hclosed
    obtain rfl := eq_nil_of_starts hr honly hclosed
    simp
  rcases List.append_eq_append_iff.mp h with ⟨x, hx, hr⟩ | ⟨x, hx, hr⟩
  · exact hmore hgap hgap' hrest hx hr
  · obtain ⟨h1, h2⟩ := hmore hgap' hgap hrest' hx hr
    exact ⟨h1.symm, h2.symm⟩

/-- What follows the blanks of a gap is a comma or opens a comment. -/
theorem IsGap.dropWhile_eq {gap : List Char} (h : IsGap gap) :
    gap.dropWhile isBlank = [] ∨ (∃ rest, gap.dropWhile isBlank = ',' :: rest) ∨
      ∃ d rest, gap.dropWhile isBlank = '/' :: d :: rest ∧ (d = '/' ∨ d = '*') := by
  have honly : OnlyCommas .plain (gap.dropWhile isBlank) := by
    rw [OnlyCommas, Mode.marks_dropWhile_isBlank]
    exact h.onlyCommas
  have hclosed : Mode.plain.after (gap.dropWhile isBlank) = .plain := by
    rw [Mode.after_dropWhile_isBlank, h.closed]
  cases hdrop : gap.dropWhile isBlank with
  | nil => exact Or.inl rfl
  | cons c rest =>
      have hblank : isBlank c = false := by
        have := List.head?_dropWhile_not isBlank gap
        rw [hdrop] at this
        simpa using this
      rw [hdrop] at honly hclosed
      by_cases hc : c = '/'
      · subst hc
        cases rest with
        | nil => exact absurd hclosed (by decide)
        | cons d rest =>
            refine Or.inr (Or.inr ⟨d, rest, rfl, ?_⟩)
            by_contra hd
            rw [not_or] at hd
            have hmem : '/' ∈ Mode.plain.marks ('/' :: d :: rest) := by
              rw [Mode.marks_cons, Mode.marks_cons]
              by_cases hb : isBlank d = true <;>
                simp [show Mode.plain.next '/' = .slash from rfl, Mode.emit, hd.1, hd.2, hb]
            exact absurd (honly '/' hmem) (by decide)
      · have hmem : c ∈ Mode.plain.marks (c :: rest) := by
          rw [Mode.marks_cons]
          simp [Mode.emit, hc, hblank]
        exact Or.inr (Or.inl ⟨rest, by rw [honly c hmem]⟩)

/-- An element ends where a gap with a comma begins, or the last gap. -/
theorem eq_nil_of_isElement {element more gap rest rest' : List Char}
    (he : IsElement (element ++ more)) (hgap : IsGap gap)
    (hend : 0 < Mode.plain.commas gap ∨ rest = [']'] ∧ rest' ≠ [])
    (h : gap ++ rest = more ++ rest') : more = [] := by
  by_contra hmore
  have hlast : ∃ c ∈ more, isBlank c = false := by
    refine ⟨more.getLast hmore, List.getLast_mem hmore, (he.last _ ?_).1⟩
    rw [List.getLast?_append_of_ne_nil _ hmore, List.getLast?_eq_some_getLast hmore]
    rfl
  have hsplit := List.takeWhile_append_dropWhile (p := isBlank) (l := gap)
  have hall : ∀ c ∈ gap.takeWhile isBlank, isBlank c = true := fun c => List.mem_takeWhile_imp
  -- what the element has more does not end among the blanks of the gap
  obtain ⟨past, rfl, hpast, hrest⟩ : ∃ past, more = gap.takeWhile isBlank ++ past ∧ past ≠ [] ∧
      gap.dropWhile isBlank ++ rest = past ++ rest' := by
    obtain ⟨c, hc, hblank⟩ := hlast
    rw [← hsplit, List.append_assoc] at h
    rcases List.append_eq_append_iff.mp h with ⟨x, hx, hr⟩ | ⟨x, hx, -⟩
    · refine ⟨x, hx, ?_, hr⟩
      rintro rfl
      rw [hx, List.append_nil] at hc
      exact absurd (hall c hc) (by simp [hblank])
    · exact absurd (hall c (hx ▸ List.mem_append_left x hc)) (by simp [hblank])
  obtain ⟨p, past, rfl⟩ := List.exists_cons_of_ne_nil hpast
  rcases hgap.dropWhile_eq with hdrop | ⟨after, hdrop⟩ | ⟨d, after, hdrop, hd⟩
  · rcases hend with hcommas | ⟨rfl, hne⟩
    · rw [Mode.commas, ← Mode.marks_dropWhile_isBlank, hdrop] at hcommas
      exact absurd hcommas (by simp)
    · rw [hdrop, List.nil_append, List.cons_append, List.cons.injEq] at hrest
      exact hne (List.append_eq_nil_iff.mp hrest.2.symm).2
  · rw [hdrop, List.cons_append, List.cons_append, List.cons.injEq] at hrest
    refine he.noComma (List.mem_append_right _ (List.mem_append_right _ ?_))
    rw [hrest.1]
    exact List.mem_cons_self
  · rw [hdrop] at hrest
    obtain ⟨rfl, htail⟩ := List.cons.inj hrest
    cases past with
    | nil =>
        refine (he.last '/' ?_).2 rfl
        rw [← List.append_assoc, List.getLast?_concat]
        rfl
    | cons d' past =>
        obtain ⟨rfl, -⟩ := List.cons.inj htail
        have hinfix : ['/', d] <:+: element ++ (gap.takeWhile isBlank ++ '/' :: d :: past) :=
          ⟨element ++ gap.takeWhile isBlank, past, by simp⟩
        rcases hd with rfl | rfl
        · exact he.noLine hinfix
        · exact he.noBlock hinfix

theorem Spaced.pos_of_ne_nil {n : Nat} {ns : List Nat} (h : Spaced (n :: ns)) (hns : ns ≠ []) :
    0 < n := by
  cases ns with
  | nil => exact absurd rfl hns
  | cons n' ns => exact Nat.lt_of_lt_of_eq Nat.one_pos h.1.symm

theorem Spaced.tail {n : Nat} {ns : List Nat} (h : Spaced (n :: ns)) : Spaced ns := by
  cases ns with
  | nil => trivial
  | cons n' ns => exact h.2

/-- A text is cut into elements and gaps in at most one way. -/
theorem parts_eq_of_spread_eq {parts parts' : List (List Char × List Char)}
    (he : ∀ p ∈ parts, IsElement p.1) (hg : ∀ p ∈ parts, IsGap p.2)
    (he' : ∀ p ∈ parts', IsElement p.1) (hg' : ∀ p ∈ parts', IsGap p.2)
    (hs : Spaced (parts.map fun p => Mode.plain.commas p.2))
    (hs' : Spaced (parts'.map fun p => Mode.plain.commas p.2))
    (h : spread parts ++ [']'] = spread parts' ++ [']']) : parts = parts' := by
  have hlong (p : List Char × List Char) (ps : List (List Char × List Char))
      (hp : IsElement p.1) : 1 < (spread (p :: ps) ++ [']']).length := by
    have := List.length_pos_of_ne_nil hp.ne_nil
    rw [spread]
    simp
    omega
  induction parts generalizing parts' with
  | nil =>
      cases parts' with
      | nil => rfl
      | cons p' parts' =>
          have := hlong p' parts' (he' _ List.mem_cons_self)
          rw [← h] at this
          contradiction
  | cons p parts ih =>
      cases parts' with
      | nil =>
          have := hlong p parts (he _ List.mem_cons_self)
          rw [h] at this
          contradiction
      | cons p' parts' =>
          obtain ⟨element, gap⟩ := p
          obtain ⟨element', gap'⟩ := p'
          have hel := he _ List.mem_cons_self
          have hel' := he' _ List.mem_cons_self
          have hgap := hg _ List.mem_cons_self
          have hgap' := hg' _ List.mem_cons_self
          have hend (n : Nat) (ps : List (List Char × List Char)) (rest : List Char)
              (hsp : Spaced (n :: ps.map fun p => Mode.plain.commas p.2)) (hrest : rest ≠ []) :
              0 < n ∨ spread ps ++ [']'] = [']'] ∧ rest ≠ [] := by
            cases ps with
            | nil => exact Or.inr ⟨rfl, hrest⟩
            | cons q ps => exact Or.inl (hsp.pos_of_ne_nil (by simp))
          simp only [spread, List.append_assoc] at h
          have heq : element = element' ∧
              gap ++ (spread parts ++ [']']) = gap' ++ (spread parts' ++ [']']) := by
            rcases List.append_eq_append_iff.mp h with ⟨x, hx, hr⟩ | ⟨x, hx, hr⟩
            · obtain rfl := eq_nil_of_isElement (hx ▸ hel') hgap
                (hend _ parts (gap' ++ (spread parts' ++ [']'])) hs (by simp)) hr
              exact ⟨by simpa using hx.symm, by simpa using hr⟩
            · obtain rfl := eq_nil_of_isElement (hx ▸ hel) hgap'
                (hend _ parts' (gap ++ (spread parts ++ [']'])) hs' (by simp)) hr
              exact ⟨by simpa using hx, by simpa using hr.symm⟩
          obtain ⟨rfl, heq⟩ := heq
          have hel₁ := fun q hq => he q (List.mem_cons_of_mem _ hq)
          have hel₂ := fun q hq => he' q (List.mem_cons_of_mem _ hq)
          obtain ⟨rfl, hrest⟩ :=
            gap_eq_of_append_eq hgap hgap' (starts_spread hel₁) (starts_spread hel₂) heq
          rw [ih hel₁ (fun q hq => hg q (List.mem_cons_of_mem _ hq)) hel₂
            (fun q hq => hg' q (List.mem_cons_of_mem _ hq)) hs.tail hs'.tail hrest]

namespace Bracketed

/-- A text is an array literal in at most one way. -/
theorem eq_of_text_eq {b b' : Bracketed} (h : b.IsArray) (h' : b'.IsArray)
    (htext : b.text = b'.text) : b = b' := by
  have hchars := String.ofList_injective htext
  obtain ⟨-, hchars⟩ := List.cons.inj hchars
  obtain ⟨hopening, hrest⟩ := gap_eq_of_append_eq b.opening_gap b'.opening_gap
    (starts_spread b.isElement) (starts_spread b'.isElement) hchars
  have hparts := parts_eq_of_spread_eq b.isElement b.isGap b'.isElement b'.isGap h.2 h'.2 hrest
  cases b
  cases b'
  cases hopening
  cases hparts
  rfl

/-- A bracketed text is an array literal with its elements exactly when its commas are
those of one. -/
theorem readsAs_iff (b : Bracketed) : ReadsAs b.text b.elements ↔ b.IsArray := by
  constructor
  · rintro ⟨⟨b', hb', htext⟩, hall⟩
    obtain ⟨hopening, hcounts⟩ := commas_eq_of_text_eq htext (hall b' hb' htext)
    exact ⟨hopening ▸ hb'.1, hcounts ▸ hb'.2⟩
  · intro h
    refine ⟨⟨b, h, rfl⟩, fun b' hb' htext => ?_⟩
    rw [eq_of_text_eq hb' h htext]

end Bracketed

end HookLint.Dependency.ArrayText

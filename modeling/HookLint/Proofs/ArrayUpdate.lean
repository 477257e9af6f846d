/-
When the updated array holds what the update says.

An array that is written anew, on one line or with one entry a line, holds exactly the
entries of the update.  An array that is edited line by line keeps the text of its lines, and
that text can be wrong in its new place in two ways.

A comment that runs over the end of a line is cut open when one of the two lines goes and
the other stays, or when lines are put between them.

A comma that does not follow its entry directly is not taken away with it: one behind a
comment, at the start of the next line, or on a line of its own.  The update writes a comma
after the entry all the same, and a hole is left.

`render_faithful_iff` says that nothing else can go wrong.
-/
import HookLint.Proofs.ArrayReading

namespace HookLint.Dependency.ArrayText

open HookLint.Text

/-! ### Where an update cuts -/

/-- Wherever a line that stays meets one that goes, the text between them is in no comment.
The line of the closing bracket stays. -/
def SeamsClear (kept : List Nat) : Mode → Bool → List Row → Prop
  | m, stayed, [] => stayed = false → m = .plain
  | m, stayed, r :: rows =>
    (r.stays kept ≠ stayed → m = .plain) ∧ SeamsClear kept (r.next m) (r.stays kept) rows

instance decidableSeamsClear (kept : List Nat) :
    (m : Mode) → (stayed : Bool) → (rows : List Row) → Decidable (SeamsClear kept m stayed rows)
  | m, stayed, [] => inferInstanceAs (Decidable (stayed = false → m = .plain))
  | m, stayed, r :: rows =>
    have : Decidable (SeamsClear kept (r.next m) (r.stays kept) rows) :=
      decidableSeamsClear kept (r.next m) (r.stays kept) rows
    inferInstanceAs (Decidable ((r.stays kept ≠ stayed → m = .plain) ∧ _))

/-- Rows that are read one after another can still be after some have gone. -/
theorem runs_filter {kept : List Nat} {rows : List Row} {m : Mode} {stayed : Bool}
    (hseams : SeamsClear kept m stayed rows) (hruns : Runs m rows) :
    Runs (if stayed then m else .plain) (rows.filter (Row.stays kept)) ∧
      through (if stayed then m else .plain) (rows.filter (Row.stays kept)) = through m rows := by
  induction rows generalizing m stayed with
  | nil =>
      cases stayed with
      | true => exact ⟨trivial, rfl⟩
      | false => exact ⟨trivial, (hseams rfl).symm⟩
  | cons r rows ih =>
      obtain ⟨hseam, hrest⟩ := hseams
      obtain ⟨hreads, hruns⟩ := hruns
      obtain ⟨hfilter, hthrough⟩ := ih hrest hruns
      by_cases hr : r.stays kept = true
      · have hm : (if stayed then m else .plain) = m := by
          cases stayed with
          | true => rfl
          | false => exact (hseam (by simp [hr])).symm
        rw [hr, if_pos rfl] at hfilter hthrough
        rw [List.filter_cons_of_pos hr, hm]
        exact ⟨⟨hreads, hfilter⟩, hthrough⟩
      · have hm : (if stayed then m else .plain) = .plain := by
          cases stayed with
          | true => exact hseam (by simp [hr])
          | false => rfl
        rw [Bool.not_eq_true] at hr
        rw [hr, if_neg Bool.false_ne_true] at hfilter hthrough
        rw [List.filter_cons_of_neg (by simp [hr]), hm]
        exact ⟨hfilter, hthrough⟩

/-! ### The updated rows -/

/-- The rows up to the last entry; none if there is no entry. -/
def withEntry (rows : List Row) : List Row := (rows.reverse.dropWhile (!·.isEntry)).reverse

/-- The rows up to the last entry, or all of them. -/
def upToEntry (rows : List Row) : List Row :=
  if (withEntry rows).isEmpty then rows else withEntry rows

/-- The rows after the last entry. -/
def pastEntry (rows : List Row) : List Row :=
  if (withEntry rows).isEmpty then [] else (rows.reverse.takeWhile (!·.isEntry)).reverse

theorem upToEntry_append_pastEntry (rows : List Row) : upToEntry rows ++ pastEntry rows = rows := by
  unfold upToEntry pastEntry
  split
  · exact List.append_nil rows
  · rw [withEntry, ← List.reverse_append, List.takeWhile_append_dropWhile, List.reverse_reverse]

theorem isEntry_of_mem_pastEntry {rows : List Row} {r : Row} (h : r ∈ pastEntry rows) :
    r.isEntry = false := by
  unfold pastEntry at h
  split at h
  · exact absurd h List.not_mem_nil
  · simpa using List.mem_takeWhile_imp (List.mem_reverse.mp h)

theorem insertLines_eq (new rows : List Row) :
    insertLines (new.map Row.line) (rows.map Row.line) =
      (upToEntry rows ++ (new ++ pastEntry rows)).map Row.line := by
  have hcomp : (fun l : Line => !l.isEntry) ∘ Row.line = fun r => !r.isEntry := by
    funext r
    simp
  unfold insertLines upToEntry pastEntry withEntry
  simp only [← List.map_reverse, List.dropWhile_map, List.takeWhile_map, hcomp, List.isEmpty_map]
  split <;> simp

/-- The row has nothing on it. -/
def Row.isVoid (r : Row) : Bool := !r.isEntry && r.text.all isBlank

/-- The row of an added entry. -/
def addedRow (indent : List Char) (entry : String) : Row := .entry 0 indent entry.toList []

namespace Bracketed

/-- The rows that stay. -/
def keptRows (b : Bracketed) (kept : List Nat) : List Row := b.rows.filter (Row.stays kept)

/-- The rows that stay, with those of the added entries after the last entry. -/
def updatedRows (b : Bracketed) (layout : Layout) (kept : List Nat) (added : List String) :
    List Row :=
  upToEntry (b.keptRows kept) ++
    (added.map (addedRow (elementIndent layout).toList) ++ pastEntry (b.keptRows kept))

theorem updatedRows_nil (b : Bracketed) (layout : Layout) (kept : List Nat) :
    b.updatedRows layout kept [] = b.keptRows kept :=
  upToEntry_append_pastEntry _

/-- The array is edited line by line and some line has something on it. -/
def Edited (b : Bracketed) (layout : Layout) (kept : List Nat) (added : List String) : Prop :=
  layout? b.text b.ranges = some layout ∧
    (b.updatedRows layout kept added).all Row.isVoid = false

/-- No comment is cut open: lines go and are put in only where the text is in no comment. -/
def CommentsWhole (b : Bracketed) (kept : List Nat) (added : List String) : Prop :=
  ∀ layout, b.Edited layout kept added →
    SeamsClear kept .plain true b.rows ∧
      (added ≠ [] → through .plain (upToEntry (b.keptRows kept)) = .plain)

/-- The updated rows hold no commas but those the update writes.  After the last entry there
may be one, when the update writes none there. -/
def CommasOwned (b : Bracketed) (kept : List Nat) (added : List String) : Prop :=
  ∀ layout, b.Edited layout kept added →
    (looseFrom b.closing .plain (b.updatedRows layout kept added)).1 = 0 ∧
      NoneLoose (hasTrailingComma b.text b.ranges)
        (looseFrom b.closing .plain (b.updatedRows layout kept added)).2

end Bracketed

/-! ### Line by line -/

theorem isBlank_leadingBlank (s : String) : ∀ c ∈ (leadingBlank s).toList, isBlank c = true := by
  intro c hc
  rw [leadingBlank, String.toList_ofList] at hc
  exact List.mem_takeWhile_imp hc

theorem isBlank_elementIndent (layout : Layout) :
    ∀ c ∈ (elementIndent layout).toList, isBlank c = true := by
  unfold elementIndent
  split
  · exact isBlank_leadingBlank _
  · intro c hc
    rw [String.toList_append, List.mem_append] at hc
    rcases hc with hc | hc
    · exact isBlank_leadingBlank _ c hc
    · exact List.all_eq_true.mp (by decide) c hc

/-- A row with an entry and nothing else leaves no comment open. -/
theorem reads_addedRow {indent : List Char} {entry : String}
    (hindent : ∀ c ∈ indent, isBlank c = true) (h : IsElement entry.toList) :
    (addedRow indent entry).Reads .plain ∧ (addedRow indent entry).next .plain = .plain := by
  have hreads : (addedRow indent entry).Reads .plain :=
    ⟨onlyCommas_of_isBlank hindent, Mode.after_of_isBlank hindent, h, by decide⟩
  refine ⟨hreads, ?_⟩
  rw [addedRow, Row.next_entry hreads]
  rfl

theorem line_addedRow (indent entry : String) :
    (addedRow indent.toList entry).line = .added indent entry := by
  simp [addedRow, Line.added, Row.line, tailOf, trimStart, afterPrefix?, startsWith]

theorem map_line_addedRow (indent : String) (entries : List String) :
    (entries.map (addedRow indent.toList)).map Row.line = entries.map (Line.added indent) := by
  rw [List.map_map]
  exact List.map_congr_left fun entry _ => line_addedRow indent entry

/-- Such rows are read one after another. -/
theorem runs_entries {indent : List Char} (hindent : ∀ c ∈ indent, isBlank c = true)
    {entries : List String} (h : ∀ a ∈ entries, IsElement a.toList) :
    Runs .plain (entries.map (addedRow indent)) ∧
      through .plain (entries.map (addedRow indent)) = .plain := by
  induction entries with
  | nil => exact ⟨trivial, rfl⟩
  | cons a entries ih =>
      obtain ⟨hreads, hnext⟩ := reads_addedRow hindent (h a List.mem_cons_self)
      obtain ⟨hruns, hthrough⟩ := ih fun a' ha' => h a' (List.mem_cons_of_mem _ ha')
      simp only [List.map_cons, Runs, through_cons, hnext]
      exact ⟨⟨hreads, hruns⟩, hthrough⟩

theorem elements_updatedRows {kept : List Nat} (hkept : kept.Pairwise (· < ·)) (b : Bracketed)
    (layout : Layout) (added : List String) :
    ((b.updatedRows layout kept added).filterMap Row.element?).map String.ofList =
      entries b.text b.ranges kept added := by
  have hpast : (pastEntry (b.keptRows kept)).filterMap Row.element? = [] := by
    rw [List.filterMap_eq_nil_iff]
    intro r hr
    have := isEntry_of_mem_pastEntry hr
    cases r with
    | plain t => rfl
    | entry => contradiction
  have hup : (upToEntry (b.keptRows kept)).filterMap Row.element? =
      (b.keptRows kept).filterMap Row.element? := by
    conv_rhs => rw [← upToEntry_append_pastEntry (b.keptRows kept)]
    rw [List.filterMap_append, hpast, List.append_nil]
  have hnew : ((added.map (addedRow (elementIndent layout).toList)).filterMap
      Row.element?).map String.ofList = added := by
    induction added with
    | nil => rfl
    | cons a added ih => simpa [addedRow, Row.element?] using ih
  rw [Bracketed.updatedRows, List.filterMap_append, List.filterMap_append, hpast, hup,
    List.append_nil, List.map_append, hnew, entries_eq, ← elements_rows hkept]
  rfl

theorem runs_rows {b : Bracketed} {layout : Layout} {first rest : List Char}
    (h : Laid b layout first rest) :
    Runs .plain b.rows ∧ OnlyCommas (through .plain b.rows) b.closing ∧
      (through .plain b.rows).after b.closing = .plain := by
  have hcut : (cutAt '\n' b.opening).tail = cutAt '\n' rest := by
    rw [h.opening, cutAt_append_cons, cutAt_of_notMem h.oneLine]
    rfl
  have hgap := b.opening_gap
  have hline : first ++ '\n' :: rest = (first ++ ['\n']) ++ rest := by simp
  have hblank : ∀ c ∈ first ++ ['\n'], isBlank c = true := by
    intro c hc
    rcases List.mem_append.mp hc with hc | hc
    · exact h.isBlank c hc
    · rw [List.mem_singleton.mp hc]
      rfl
  have honly := hgap.onlyCommas
  have hclosed := hgap.closed
  rw [h.opening, hline, onlyCommas_append, Mode.after_of_isBlank hblank] at honly
  rw [h.opening, hline, Mode.after_append, Mode.after_of_isBlank hblank] at hclosed
  rw [Bracketed.rows, Bracketed.closing, hcut]
  exact runs_rowsFrom h.apart b.isElement b.isGap 0 honly.2 hclosed

/-- When no comment is cut open, the updated rows are read one after another. -/
theorem runs_updatedRows {b : Bracketed} (layout : Layout) {kept : List Nat} {added : List String}
    (hadded : ∀ a ∈ added, IsElement a.toList) (hruns : Runs .plain b.rows)
    (hseams : SeamsClear kept .plain true b.rows)
    (hinsert : added ≠ [] → through .plain (upToEntry (b.keptRows kept)) = .plain) :
    Runs .plain (b.updatedRows layout kept added) ∧
      through .plain (b.updatedRows layout kept added) = through .plain b.rows := by
  obtain ⟨hkept, hthrough⟩ := runs_filter hseams hruns
  rw [if_pos rfl] at hkept hthrough
  have hsplit : b.rows.filter (Row.stays kept) =
      upToEntry (b.keptRows kept) ++ pastEntry (b.keptRows kept) :=
    (upToEntry_append_pastEntry _).symm
  rw [hsplit, runs_append] at hkept
  rw [hsplit, through_append] at hthrough
  unfold Bracketed.updatedRows
  by_cases hnone : added = []
  · subst hnone
    rw [List.map_nil, List.nil_append, runs_append, through_append]
    exact ⟨hkept, hthrough⟩
  · obtain ⟨hnew, hplain⟩ := runs_entries (isBlank_elementIndent layout) hadded
    rw [hinsert hnone] at hkept hthrough
    rw [runs_append, runs_append, through_append, through_append, hinsert hnone, hplain]
    exact ⟨⟨hkept.1, hnew, hkept.2⟩, hthrough⟩

/-- An array edited line by line is written from the rows that stay and those of the added
entries. -/
theorem renderLayout_rows {array : String} {layout : Layout} {declared : List ByteRange}
    {kept : List Nat} {rows : List Row}
    (hkept : keptLines layout declared kept = rows.map Row.line) (added : List String) :
    renderLayout array layout declared kept added =
      let new := added.map (addedRow (elementIndent layout).toList)
      if (upToEntry rows ++ (new ++ pastEntry rows)).all Row.isVoid then "[]"
      else "[\n" ++ renderLines (hasTrailingComma array declared)
          ((upToEntry rows ++ (new ++ pastEntry rows)).map Row.line) ++ layout.closing := by
  have hall (rows : List Row) :
      ((rows.map Row.line).all fun l => !l.isEntry && isBlankText l.head) = rows.all Row.isVoid := by
    rw [List.all_map]
    congr 1
    funext r
    cases r <;> simp [Row.line, Row.isEntry, Row.isVoid, isBlankText]
  unfold renderLayout
  dsimp only
  rw [← map_line_addedRow, hkept, insertLines_eq, hall]

/-- An array edited line by line is written from the updated rows. -/
theorem renderLayout_eq {b : Bracketed} {layout : Layout} {first rest : List Char}
    (h : Laid b layout first rest) (kept : List Nat) (added : List String) :
    renderLayout b.text layout b.ranges kept added =
      if (b.updatedRows layout kept added).all Row.isVoid then "[]"
      else "[\n" ++ renderLines (hasTrailingComma b.text b.ranges)
          ((b.updatedRows layout kept added).map Row.line) ++
        String.ofList (b.closing ++ [']']) := by
  rw [renderLayout_rows (keptLines_eq h kept), h.closing]
  rfl

/-! ### Anew -/

/-- The elements with the gaps that an array on one line has. -/
def joinParts : List String → List (List Char × List Char)
  | [] => []
  | [e] => [(e.toList, [])]
  | e :: es => (e.toList, [',', ' ']) :: joinParts es

theorem toList_join (es : List String) : (join ", " es).toList = spread (joinParts es) := by
  induction es with
  | nil => rfl
  | cons e es ih =>
      cases es with
      | nil => simp [join, joinParts, spread]
      | cons e' es =>
          rw [join, joinParts, spread, ← ih]
          · simp
          · simp
          · simp

theorem mem_joinParts {es : List String} {p : List Char × List Char} (h : p ∈ joinParts es) :
    (∃ e ∈ es, p.1 = e.toList) ∧ (p.2 = [',', ' '] ∨ p.2 = []) := by
  induction es with
  | nil => exact absurd h List.not_mem_nil
  | cons e es ih =>
      cases es with
      | nil =>
          rw [List.mem_singleton.mp h]
          exact ⟨⟨e, List.mem_cons_self, rfl⟩, Or.inr rfl⟩
      | cons e' es =>
          rcases List.mem_cons.mp h with rfl | h
          · exact ⟨⟨e, List.mem_cons_self, rfl⟩, Or.inl rfl⟩
          · obtain ⟨⟨e'', he'', hp⟩, hgap⟩ := ih h
            exact ⟨⟨e'', List.mem_cons_of_mem _ he'', hp⟩, hgap⟩

theorem map_fst_joinParts (es : List String) : (joinParts es).map Prod.fst = es.map String.toList := by
  induction es with
  | nil => rfl
  | cons e es ih =>
      cases es with
      | nil => rfl
      | cons e' es => simpa [joinParts] using ih

theorem spaced_joinParts (es : List String) :
    Spaced ((joinParts es).map fun p => Mode.plain.commas p.2) := by
  induction es with
  | nil => trivial
  | cons e es ih =>
      cases es with
      | nil => exact Nat.zero_le 1
      | cons e' es =>
          cases es with
          | nil => exact ⟨rfl, ih⟩
          | cons e'' es => exact ⟨rfl, ih⟩

/-- An array on one line holds its entries. -/
theorem readsAs_join {es : List String} (h : ∀ e ∈ es, IsElement e.toList) :
    ReadsAs ("[" ++ join ", " es ++ "]") es := by
  have hel : ∀ p ∈ joinParts es, IsElement p.1 := by
    intro p hp
    obtain ⟨⟨e, he, hpe⟩, -⟩ := mem_joinParts hp
    rw [hpe]
    exact h e he
  have hgap : ∀ p ∈ joinParts es, IsGap p.2 := by
    intro p hp
    rcases (mem_joinParts hp).2 with hp | hp
    · rw [hp]
      exact ⟨rfl, by decide⟩
    · rw [hp]
      exact ⟨rfl, by decide⟩
  let b : Bracketed := ⟨[], joinParts es, ⟨rfl, by decide⟩, hel, hgap⟩
  have htext : b.text = "[" ++ join ", " es ++ "]" := by
    apply String.toList_inj.mp
    simp [b, Bracketed.text, toList_join]
  have helements : b.elements = es := by
    have hfst := congrArg (List.map String.ofList) (map_fst_joinParts es)
    simpa [b, Bracketed.elements, Function.comp_def] using hfst
  have harray : b.IsArray := ⟨rfl, spaced_joinParts es⟩
  rw [← htext]
  exact helements ▸ b.readsAs_iff.mpr harray

theorem readsAs_nil : ReadsAs "[]" [] :=
  @readsAs_join [] fun _ h => absurd h List.not_mem_nil

theorem commas_of_isBlank {cs : List Char} (h : ∀ c ∈ cs, isBlank c = true) :
    Mode.plain.commas cs = 0 := by
  rw [Mode.commas, Mode.marks_of_isBlank h]
  rfl

theorem looseFrom_entries {indent closing : List Char} (hindent : ∀ c ∈ indent, isBlank c = true)
    (hclosing : ∀ c ∈ closing, isBlank c = true) {entries : List String}
    (h : ∀ a ∈ entries, IsElement a.toList) :
    looseFrom closing .plain (entries.map (addedRow indent)) =
      (0, List.replicate entries.length 0) := by
  induction entries with
  | nil => simp [looseFrom, commas_of_isBlank hclosing]
  | cons a entries ih =>
      obtain ⟨-, hnext⟩ := reads_addedRow hindent (h a List.mem_cons_self)
      have hrest := ih fun a' ha' => h a' (List.mem_cons_of_mem _ ha')
      rw [addedRow] at hnext
      rw [List.map_cons, addedRow, looseFrom]
      simp only [hnext, hrest, commas_of_isBlank hindent]
      rfl

theorem noneLoose_replicate (trailing : Bool) (n : Nat) :
    NoneLoose trailing (List.replicate n 0) := by
  induction n with
  | zero => trivial
  | succ n ih =>
      cases n with
      | zero => cases trailing <;> decide
      | succ n => exact ⟨rfl, ih⟩

theorem isBlank_closeIndent (array : String) :
    ∀ c ∈ (closeIndent array).toList, isBlank c = true := by
  unfold closeIndent
  split
  · split
    · exact isBlank_leadingBlank _
    · exact fun c hc => absurd hc List.not_mem_nil
  · exact fun c hc => absurd hc List.not_mem_nil

theorem isBlank_newIndent (array : String) : ∀ c ∈ (newIndent array).toList, isBlank c = true := by
  unfold newIndent
  split
  · exact isBlank_leadingBlank _
  · intro c hc
    rw [String.toList_append, List.mem_append] at hc
    rcases hc with hc | hc
    · exact isBlank_closeIndent array c hc
    · exact List.all_eq_true.mp (by decide) c hc

theorem rebuild_eq (array : String) (es : List String) :
    ∃ trailing, rebuild array es = "[\n" ++ renderLines trailing
        ((es.map (addedRow (newIndent array).toList)).map Row.line) ++
      String.ofList ((closeIndent array).toList ++ [']']) := by
  rw [map_line_addedRow, String.ofList_append, String.ofList_toList]
  simp only [← String.append_assoc]
  exact ⟨_, rfl⟩

/-- An array with one entry a line holds its entries. -/
theorem readsAs_rebuild (array : String) {es : List String} (h : ∀ e ∈ es, IsElement e.toList) :
    ReadsAs (rebuild array es) es := by
  obtain ⟨trailing, htext⟩ := rebuild_eq array es
  have hindent := isBlank_newIndent array
  have hclosing := isBlank_closeIndent array
  obtain ⟨hruns, hthrough⟩ := runs_entries hindent h
  obtain ⟨b, hb, helements, harray⟩ := exists_bracketed trailing hruns
    (by rw [hthrough]; exact onlyCommas_of_isBlank hclosing)
    (by rw [hthrough]; exact Mode.after_of_isBlank hclosing)
  have hes : b.elements = es := by
    rw [helements, List.filterMap_map, List.map_filterMap]
    simp [addedRow, Row.element?]
  have hone : b.IsArray := by
    rw [harray, looseFrom_entries hindent hclosing h]
    exact ⟨rfl, noneLoose_replicate trailing _⟩
  rw [htext, ← hb, ← hes]
  exact b.readsAs_iff.mpr hone

/-! ### The update -/

theorem layout?_eq_none_of_oneLine {array : String} (h : '\n' ∉ array.toList)
    (declared : List ByteRange) : layout? array declared = none := by
  cases hlayout : layout? array declared with
  | none => rfl
  | some layout =>
      obtain ⟨head, tail, last, hlines, htail, -⟩ := layout?_eq_some hlayout
      have hlength := length_placedLines array
      rw [hlines, List.length_cons, List.count_eq_zero_of_not_mem h] at hlength
      exact absurd (List.length_eq_zero_iff.mp (by omega)) htail

theorem isElement_of_mem_entries {b : Bracketed} {kept : List Nat} {added : List String}
    (hadded : ∀ a ∈ added, IsElement a.toList) :
    ∀ e ∈ entries b.text b.ranges kept added, IsElement e.toList := by
  intro e he
  rw [entries_eq, List.mem_append, List.mem_filterMap] at he
  rcases he with ⟨i, -, hi⟩ | he
  · obtain ⟨p, hp, rfl⟩ := List.mem_map.mp (List.mem_of_getElem? hi)
    rw [String.toList_ofList]
    exact b.isElement p hp
  · exact hadded e he

theorem elements_eq_nil_of_isVoid {rows : List Row} (h : rows.all Row.isVoid = true) :
    rows.filterMap Row.element? = [] := by
  rw [List.filterMap_eq_nil_iff]
  intro r hr
  have hvoid := List.all_eq_true.mp h r hr
  cases r with
  | plain t => rfl
  | entry => simp [Row.isVoid, Row.isEntry] at hvoid

/-- An array that is edited line by line holds the entries of the update exactly when the
rows hold no commas of their own, provided that no comment is cut open. -/
theorem readsAs_renderLayout_iff {b : Bracketed} {layout : Layout} {first rest : List Char}
    (hlaid : Laid b layout first rest) {kept : List Nat} (hkept : kept.Pairwise (· < ·))
    {added : List String} (hadded : ∀ a ∈ added, IsElement a.toList)
    (hseams : SeamsClear kept .plain true b.rows)
    (hinsert : added ≠ [] → through .plain (upToEntry (b.keptRows kept)) = .plain) :
    ReadsAs ("[\n" ++ renderLines (hasTrailingComma b.text b.ranges)
          ((b.updatedRows layout kept added).map Row.line) ++ String.ofList (b.closing ++ [']']))
        (entries b.text b.ranges kept added) ↔
      (looseFrom b.closing .plain (b.updatedRows layout kept added)).1 = 0 ∧
        NoneLoose (hasTrailingComma b.text b.ranges)
          (looseFrom b.closing .plain (b.updatedRows layout kept added)).2 := by
  obtain ⟨hruns, hclosing, hend⟩ := runs_rows hlaid
  obtain ⟨hupdated, hthrough⟩ := runs_updatedRows layout hadded hruns hseams hinsert
  obtain ⟨b', htext, helements, harray⟩ :=
    exists_bracketed (hasTrailingComma b.text b.ranges) hupdated
      (by rw [hthrough]; exact hclosing) (by rw [hthrough]; exact hend)
  rw [elements_updatedRows hkept] at helements
  rw [← htext, ← helements, b'.readsAs_iff, harray]

/-- An update of an array gives an array literal with exactly the entries of the update and
with no comment cut open, except when the array is edited line by line and either a line goes
or is put in inside a comment, or a comma stays that does not follow its entry directly. -/
theorem render_faithful_iff (b : Bracketed) {kept : List Nat} (hkept : kept.Pairwise (· < ·))
    {added : List String} (hadded : ∀ a ∈ added, IsElement a.toList) :
    ∃ text, render? b.text b.ranges kept added = some text ∧
      (b.CommentsWhole kept added ∧ ReadsAs text (entries b.text b.ranges kept added) ↔
        b.CommentsWhole kept added ∧ b.CommasOwned kept added) := by
  have hentries : ∀ e ∈ entries b.text b.ranges kept added, IsElement e.toList :=
    isElement_of_mem_entries hadded
  have hanew (hnone : layout? b.text b.ranges = none) {text : String}
      (htext : ReadsAs text (entries b.text b.ranges kept added)) :
      b.CommentsWhole kept added ∧ ReadsAs text (entries b.text b.ranges kept added) ↔
        b.CommentsWhole kept added ∧ b.CommasOwned kept added := by
    refine and_congr_right fun _ => ⟨fun _ layout hedited => ?_, fun _ => htext⟩
    rw [hedited.1] at hnone
    contradiction
  unfold render?
  dsimp only
  split
  · rename_i hline
    have hone : '\n' ∉ b.text.toList := by simpa using hline
    exact ⟨_, rfl, hanew (layout?_eq_none_of_oneLine hone b.ranges) (readsAs_join hentries)⟩
  · split
    · rename_i layout hlayout
      obtain ⟨first, rest, hlaid⟩ := laid_of_layout? hlayout
      rw [if_pos (cutsCleanly_of_layout? hlayout (fun r => slice?_of_mem_ranges) kept),
        renderLayout_eq hlaid]
      refine ⟨_, rfl, and_congr_right fun hwhole => ?_⟩
      split
      · rename_i hvoid
        have hnone : entries b.text b.ranges kept added = [] := by
          rw [← elements_updatedRows hkept b layout, elements_eq_nil_of_isVoid hvoid]
          rfl
        rw [hnone]
        refine ⟨fun _ layout' hedited => ?_, fun _ => readsAs_nil⟩
        obtain rfl : layout = layout' := Option.some.inj (hlayout.symm.trans hedited.1)
        rw [hedited.2] at hvoid
        contradiction
      · rename_i hvoid
        have hedited : b.Edited layout kept added := ⟨hlayout, by simpa using hvoid⟩
        obtain ⟨hseams, hinsert⟩ := hwhole layout hedited
        rw [readsAs_renderLayout_iff hlaid hkept hadded hseams hinsert]
        constructor
        · intro h layout' hedited'
          obtain rfl : layout = layout' := Option.some.inj (hlayout.symm.trans hedited'.1)
          exact h
        · intro h
          exact h layout hedited
    · rename_i hnone
      split
      · rename_i hempty
        refine ⟨_, rfl, hanew hnone ?_⟩
        rw [List.isEmpty_iff.mp hempty]
        exact readsAs_nil
      · exact ⟨_, rfl, hanew hnone (readsAs_rebuild b.text hentries)⟩

/-- An array with its commas after its entries, and comments around them. -/
def tidyArray : Bracketed where
  opening := "\n  ".toList
  parts := [("first".toList, ", // kept\n  /* as\n     it is */\n  ".toList),
    ("second".toList, ",\n".toList)]
  opening_gap := by decide
  isElement := by
    intro p hp
    simp only [List.mem_cons, List.not_mem_nil, or_false] at hp
    rcases hp with rfl | rfl <;> exact isElement_of_all (by decide) (by decide)
  isGap := by decide

/-- An array with a comma behind a comment. -/
def looseArray : Bracketed where
  opening := "\n  ".toList
  parts := [("a".toList, " /* x */,\n  ".toList), ("b".toList, "\n".toList)]
  opening_gap := by decide
  isElement := by
    intro p hp
    simp only [List.mem_cons, List.not_mem_nil, or_false] at hp
    rcases hp with rfl | rfl <;> exact isElement_of_all (by decide) (by decide)
  isGap := by decide

/-- An entry goes from the one array, with its line, and all the rest stays; the other is
given a hole though nothing goes from it. -/
theorem render_faithful_iff_comments :
    (∃ text, render? tidyArray.text tidyArray.ranges [0] [] = some text ∧
      ReadsAs text ["first"]) ∧
    ∃ text, render? looseArray.text looseArray.ranges [0, 1] [] = some text ∧
      ¬ ReadsAs text ["a", "b"] := by
  have hnone : ∀ a ∈ ([] : List String), IsElement a.toList := fun a ha => absurd ha List.not_mem_nil
  constructor
  · obtain ⟨text, htext, hiff⟩ := render_faithful_iff tidyArray (by decide : [0].Pairwise (· < ·)) hnone
    refine ⟨text, htext, ?_⟩
    have hwhole : tidyArray.CommentsWhole [0] [] := fun _ _ => ⟨by decide +kernel, by decide⟩
    have howned : tidyArray.CommasOwned [0] [] := by
      intro layout _
      rw [Bracketed.updatedRows_nil]
      decide +kernel
    have hentries : entries tidyArray.text tidyArray.ranges [0] [] = ["first"] := by decide +kernel
    exact hentries ▸ (hiff.mpr ⟨hwhole, howned⟩).2
  · obtain ⟨text, htext, hiff⟩ :=
      render_faithful_iff looseArray (by decide : [0, 1].Pairwise (· < ·)) hnone
    refine ⟨text, htext, fun hreads => ?_⟩
    have hwhole : looseArray.CommentsWhole [0, 1] [] := fun _ _ => ⟨by decide +kernel, by decide⟩
    have hentries : entries looseArray.text looseArray.ranges [0, 1] [] = ["a", "b"] := by
      decide +kernel
    obtain ⟨layout, hlayout⟩ : ∃ layout, layout? looseArray.text looseArray.ranges = some layout :=
      Option.isSome_iff_exists.mp (by decide +kernel)
    have hedited : looseArray.Edited layout [0, 1] [] := by
      refine ⟨hlayout, ?_⟩
      rw [Bracketed.updatedRows_nil]
      decide +kernel
    have howned := (hiff.mp ⟨hwhole, hentries ▸ hreads⟩).2 layout hedited
    rw [Bracketed.updatedRows_nil] at howned
    exact absurd howned (by decide +kernel)

end HookLint.Dependency.ArrayText

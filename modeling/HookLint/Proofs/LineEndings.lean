/-
Line endings of an updated array.

A text has returns when every line feed follows a carriage return.  An update writes its own
line feeds without one: after the opening bracket, after every entry and after every added one.
So an array over several lines never keeps its returns, unless nothing of it is left
(`returned_iff_of_render?`).  What is left of them stands on the lines that an update by lines
does not end itself, and `Row.getLast?_written` says which these are: those without an entry, and
those with a remark after the entry.  Such an array has both kinds of line endings.
-/
import HookLint.Proofs.ArrayLayout
import HookLint.Proofs.Placement

namespace HookLint.Text

/-! ### Texts with returns -/

/-- Every line feed follows a carriage return. -/
def Returned (s : String) : Prop :=
  ∀ before after, s.toList = before ++ '\n' :: after → before.getLast? = some '\r'

theorem returned_of_notMem {s : String} (h : '\n' ∉ s.toList) : Returned s := by
  intro before after heq
  refine absurd ?_ h
  rw [heq]
  exact List.mem_append_right _ List.mem_cons_self

/-- Where the line feeds are of a text whose first line is known. -/
theorem eq_or_of_append_eq {line rest before after : List Char} (hline : '\n' ∉ line)
    (h : line ++ '\n' :: rest = before ++ '\n' :: after) :
    before = line ∨ ∃ later, before = line ++ '\n' :: later ∧ rest = later ++ '\n' :: after := by
  rcases List.append_eq_append_iff.mp h with ⟨cs, hbefore, hrest⟩ | ⟨cs, hcs, hafter⟩
  · cases cs with
    | nil => exact Or.inl (by simpa using hbefore)
    | cons c cs =>
        rw [List.cons_append, List.cons.injEq] at hrest
        obtain ⟨rfl, hrest⟩ := hrest
        exact Or.inr ⟨cs, hbefore, hrest⟩
  · cases cs with
    | nil => exact Or.inl (by simpa using hcs.symm)
    | cons c cs =>
        rw [List.cons_append, List.cons.injEq] at hafter
        refine absurd ?_ hline
        rw [hcs, hafter.1]
        exact List.mem_append_right _ List.mem_cons_self

/-- A text has returns when every line but the last ends with one. -/
theorem returned_iff {s : String} :
    Returned s ↔ ∀ line ∈ (cutAt '\n' s.toList).dropLast, line.getLast? = some '\r' := by
  suffices hlist : ∀ cs : List Char,
      (∀ before after, cs = before ++ '\n' :: after → before.getLast? = some '\r') ↔
        ∀ line ∈ (cutAt '\n' cs).dropLast, line.getLast? = some '\r' from hlist s.toList
  intro cs
  induction hn : cs.length using Nat.strong_induction_on generalizing cs with
  | _ n ih =>
      by_cases hmem : '\n' ∈ cs
      · obtain ⟨line, rest, hline, rfl, hcut⟩ := cutAt_of_mem hmem
        have hrest := ih rest.length (by rw [← hn]; simp; omega) rest rfl
        rw [hcut, List.dropLast_cons_of_ne_nil (cutAt_ne_nil '\n' rest), List.forall_mem_cons,
          ← hrest]
        constructor
        · intro h
          refine ⟨h line rest rfl, fun before after heq => ?_⟩
          -- were nothing before it on its line, the line feed would follow another one
          have hlast := h (line ++ '\n' :: before) after (by rw [heq]; simp)
          cases before with
          | nil => simp at hlast
          | cons c cs => simpa using hlast
        · rintro ⟨hfirst, hlater⟩ before after heq
          rcases eq_or_of_append_eq hline heq with rfl | ⟨later, rfl, hrest'⟩
          · exact hfirst
          · have hlast := hlater later after hrest'
            rw [List.getLast?_append, List.getLast?_cons, hlast]
            rfl
      · rw [cutAt_of_notMem hmem]
        refine iff_of_true (fun before after heq => absurd ?_ hmem) fun line h => by contradiction
        rw [heq]
        exact List.mem_append_right _ List.mem_cons_self

instance decidableReturned (s : String) : Decidable (Returned s) :=
  decidable_of_iff _ returned_iff.symm

theorem not_returned_of_append (s : String) : ¬ Returned ("[\n" ++ s) := by
  intro h
  have := h ['['] s.toList (by simp)
  contradiction

end HookLint.Text

namespace HookLint.Dependency.ArrayText

open HookLint.Text

variable {array : String} {declared : List ByteRange} {kept : List Nat} {added : List String}

/-! ### Where an update writes line feeds -/

/-- Entries have the characters of the array and of the added ones. -/
theorem mem_of_mem_entries {e : String} {c : Char} (he : e ∈ entries array declared kept added)
    (hc : c ∈ e.toList) : c ∈ array.toList ∨ ∃ a ∈ added, c ∈ a.toList := by
  rcases List.mem_append.mp he with he | he
  · obtain ⟨i, -, hi⟩ := List.mem_filterMap.mp he
    obtain ⟨r, -, hr⟩ := Option.bind_eq_some_iff.mp hi
    obtain ⟨u, v, rfl, -, -⟩ := slice?_eq_some_iff.mp hr
    simp [hc]
  · exact Or.inr ⟨e, he, hc⟩

/-- An array over several lines starts with a bare line feed after the update, if there is anything
to write. -/
theorem eq_or_of_render? {text : String} (hlines : '\n' ∈ array.toList)
    (h : render? array declared kept added = some text) :
    text = "[]" ∨ ∃ s, text = "[\n" ++ s := by
  have hmany : array.toList.contains '\n' = true := by simpa using hlines
  unfold render? at h
  simp only [hmany, Bool.not_true, Bool.false_eq_true, if_false] at h
  split at h
  · split at h
    · rw [renderLayout, Option.some.injEq] at h
      split at h
      · exact Or.inl h.symm
      · exact Or.inr ⟨_, by rw [← h, String.append_assoc]⟩
    · contradiction
  · split at h
    · exact Or.inl (Option.some.inj h).symm
    · rw [rebuild, Option.some.injEq] at h
      exact Or.inr ⟨_, by rw [← h, String.append_assoc, String.append_assoc]⟩

/-- An updated array has returns only where no line feed is written. -/
theorem returned_iff_of_render? {text : String} (hadded : ∀ a ∈ added, '\n' ∉ a.toList)
    (h : render? array declared kept added = some text) :
    Returned text ↔ '\n' ∉ array.toList ∨ text = "[]" := by
  by_cases hlines : '\n' ∈ array.toList
  · rcases eq_or_of_render? hlines h with rfl | ⟨s, rfl⟩
    · exact iff_of_true (returned_of_notMem (by decide)) (Or.inr rfl)
    · refine iff_of_false (not_returned_of_append s) ?_
      rintro (hone | hnone)
      · exact hone hlines
      · have := congrArg String.toList hnone
        simp at this
  · refine iff_of_true (returned_of_notMem fun hmem => ?_) (Or.inl hlines)
    have hone : array.toList.contains '\n' = false := by simpa using hlines
    unfold render? at h
    simp only [hone, Bool.not_false, if_true, Option.some.injEq] at h
    have hjoin : '\n' ∈ (join ", " (entries array declared kept added)).toList := by
      simpa [← h] using hmem
    rcases mem_join hjoin with hsep | ⟨e, he, hc⟩
    · exact absurd hsep (by decide)
    · rcases mem_of_mem_entries he hc with hc | ⟨a, ha, hc⟩
      · exact hlines hc
      · exact hadded a ha hc

/-! ### Which lines keep their return -/

/-- A remark ends as what followed the entry. -/
theorem getLast?_remark {rest : List Char} (h : remark rest ≠ []) :
    (remark rest).getLast? = rest.getLast? := by
  unfold remark at h ⊢
  split at h
  · exact absurd rfl h
  · rename_i hsome
    obtain ⟨cs, hcs⟩ := pastComma_suffix rest
    have hne : pastComma rest ≠ [] := by simpa using hsome
    rw [if_neg hsome, ← List.singleton_append, List.getLast?_append_of_ne_nil _ hne]
    conv_rhs => rw [← hcs, List.getLast?_append_of_ne_nil _ hne]

namespace Row

/-- Whatever stands on the row's line after the entry, if there is one, ends with a return. -/
def EndsReturned : Row → Prop
  | plain t => t.getLast? = some '\r'
  | entry _ _ _ rest => rest = [] ∨ rest.getLast? = some '\r'

/-- The line of the row has a return after the update: it has no entry, a remark stands after the
entry, or nothing is written after an entry that ends with a return itself. -/
def keepsReturn (comma : Bool) : Row → Bool
  | plain _ => true
  | entry _ lead element rest =>
    !(remark rest).isEmpty || (!comma && (lead ++ element).getLast? == some '\r')

theorem endsReturned_of_getLast? {r : Row} (h : r.text.getLast? = some '\r') : r.EndsReturned := by
  cases r with
  | plain t => exact h
  | entry k lead element rest =>
      by_cases hrest : rest = []
      · exact Or.inl hrest
      · right
        rw [text_entry, List.getLast?_append_of_ne_nil _ (by simp [hrest]),
          List.getLast?_append_of_ne_nil _ hrest] at h
        exact h

theorem getLast?_written {r : Row} (h : r.EndsReturned) (comma : Bool) :
    (r.written comma).getLast? = some '\r' ↔ r.keepsReturn comma = true := by
  cases r with
  | plain t => exact iff_of_true h rfl
  | entry k lead element rest =>
      by_cases hremark : remark rest = []
      · cases comma with
        | true => simp [written, keepsReturn, hremark]
        | false => simp [written, keepsReturn, hremark]
      · have hlast : (remark rest).getLast? = some '\r' := by
          rw [getLast?_remark hremark]
          rcases h with rfl | h
          · exact absurd rfl hremark
          · exact h
        refine iff_of_true ?_ (by simp [keepsReturn, hremark])
        rw [written, ← List.append_assoc, ← List.append_assoc,
          List.getLast?_append_of_ne_nil _ hremark]
        exact hlast

end Row

/-- The lines of an update that have a return. -/
def keptReturns (trailing : Bool) : List Row → List Bool
  | [] => []
  | r :: rows => r.keepsReturn (rows.any Row.isEntry || trailing) :: keptReturns trailing rows

theorem endsWith_return (cs : List Char) :
    endsWith (String.ofList cs) "\r" = (cs.getLast? == some '\r') := by
  rw [Bool.eq_iff_iff, beq_iff_eq, endsWith, List.isSuffixOf_iff_suffix, List.getLast?_eq_some_iff]
  simp only [String.toList_ofList]
  exact exists_congr fun _ => eq_comm

theorem endsWith_writtenRows (trailing : Bool) {rows : List Row} (h : ∀ r ∈ rows, r.EndsReturned) :
    ((writtenRows trailing rows).map String.ofList).map (endsWith · "\r") =
      keptReturns trailing rows := by
  induction rows with
  | nil => rfl
  | cons r rows ih =>
      have hlast := Row.getLast?_written (h r List.mem_cons_self) (rows.any Row.isEntry || trailing)
      rw [writtenRows, keptReturns, List.map_cons, List.map_cons, endsWith_return,
        ih fun r hr => h r (List.mem_cons_of_mem _ hr)]
      congr 1
      rw [Bool.eq_iff_iff, beq_iff_eq, hlast]

/-- The rows of an update of an array with returns end as they did. -/
theorem LaidOut.Updates.endsReturned {l : LaidOut array declared} {rows : List Row}
    (h : l.Updates kept added rows) (harray : Returned array) : ∀ r ∈ rows, r.EndsReturned := by
  intro r hr
  rcases h.mem_iff.mp hr with ⟨hr, -⟩ | ⟨a, -, rfl⟩
  · refine Row.endsReturned_of_getLast? (returned_iff.mp harray r.text ?_)
    rw [l.cutAt_eq, ← List.cons_append, List.dropLast_concat]
    exact List.mem_cons_of_mem _ (List.mem_map_of_mem hr)
  · exact Or.inl rfl

/-- An array over several lines loses its returns, but for the lines that have no entry on them or
a remark after it. -/
theorem update_drops_returns (harray : Returned array)
    (hpieces : ∀ r ∈ declared, ∃ t, slice? array r.start r.stop = some t)
    (hadded : ∀ a ∈ added, '\n' ∉ a.toList) (kept : List Nat) :
    ∃ text, render? array declared kept added = some text ∧
      (Returned text ↔ '\n' ∉ array.toList ∨ text = "[]") ∧
      ((layout? array declared).isSome = true → text ≠ "[]" →
        ∃ (l : LaidOut array declared) (rows : List Row) (trailing : Bool),
          l.Updates kept added rows ∧ (trailing = true ↔ CommaFollows array declared) ∧
          (segments text).dropLast.map (endsWith · "\r") = false :: keptReturns trailing rows) := by
  obtain ⟨text, hrender⟩ := exists_render? hpieces kept added
  refine ⟨text, hrender, returned_iff_of_render? hadded hrender, fun hlayout hsome => ?_⟩
  obtain ⟨layout, hlayout⟩ := Option.isSome_iff_exists.mp hlayout
  obtain ⟨l, rows, hrows, hrender'⟩ := exists_updates hlayout hpieces kept added
  refine ⟨l, rows, hasTrailingComma array declared, hrows, hasTrailingComma_iff hpieces, ?_⟩
  rw [hrender, Option.some.injEq] at hrender'
  by_cases hvoid : rows.all Row.isVoid = true
  · rw [if_pos hvoid] at hrender'
    exact absurd hrender' hsome
  · rw [hrender', if_neg hvoid,
      segments_renderLines _ (hrows.notMem hadded) l.notMem.2, ← List.cons_append,
      List.dropLast_concat, List.map_cons, endsWith_writtenRows _ (hrows.endsReturned harray)]
    rfl

/-- An array with returns and comments. -/
def returnedArray : String := "[\r\n  // x\r\n  a, // y\r\n  b,\r\n]"

def returnedRanges : List ByteRange := [⟨13, 14⟩, ⟨24, 25⟩]

/-- The lines with comments keep their returns and the others lose them. -/
theorem update_drops_returns_comments :
    Returned returnedArray ∧
    (∃ text, render? returnedArray returnedRanges [0, 1] ["c"] = some text ∧ ¬ Returned text ∧
      ∃ (l : LaidOut returnedArray returnedRanges) (rows : List Row) (trailing : Bool),
        l.Updates [0, 1] ["c"] rows ∧
        (segments text).dropLast.map (endsWith · "\r") = false :: keptReturns trailing rows) ∧
    render? returnedArray returnedRanges [0, 1] ["c"] =
      some "[\n  // x\r\n  a, // y\r\n  b,\n  c,\n]" := by
  have harray : Returned returnedArray := by decide +kernel
  have hpieces : ∀ r ∈ returnedRanges, ∃ t, slice? returnedArray r.start r.stop = some t :=
    forall_slice?_of_all (by decide +kernel)
  have htext : render? returnedArray returnedRanges [0, 1] ["c"] =
      some "[\n  // x\r\n  a, // y\r\n  b,\n  c,\n]" := by
    decide +kernel
  refine ⟨harray, ?_, htext⟩
  obtain ⟨text, hrender, hreturned, hlines⟩ := update_drops_returns harray hpieces
    (by decide : ∀ a ∈ ["c"], '\n' ∉ a.toList) [0, 1]
  have hsome : text ≠ "[]" := by
    rw [hrender, Option.some.injEq] at htext
    rw [htext]
    decide
  obtain ⟨l, rows, trailing, hrows, -, hends⟩ := hlines (by decide +kernel) hsome
  refine ⟨text, hrender, fun h => ?_, l, rows, trailing, hrows, hends⟩
  rcases hreturned.mp h with hone | hnone
  · exact hone (by decide)
  · exact hsome hnone

/-- Adding an entry to an array with returns leaves none of them. -/
theorem returns_lost :
    Returned "[\r\n  a,\r\n  b,\r\n  c,\r\n]" ∧
    ∃ text, render? "[\r\n  a,\r\n  b,\r\n  c,\r\n]" [⟨5, 6⟩, ⟨11, 12⟩, ⟨17, 18⟩] [0, 1, 2] ["d"] =
      some text ∧ ¬ Returned text :=
  ⟨by decide +kernel, "[\n  a,\n  b,\n  c,\n  d,\n]", by decide +kernel, by decide +kernel⟩

end HookLint.Dependency.ArrayText

/-
Where suggestions stand.

A tree is placed in a text when the range of every node is a piece of the text and lies in
the range of its parent.  What a finding suggests then fits its place: the entries of an
array stand in it, so their offsets can be counted from its start, and each of them is cut
out of the array's text as it is written in the source (`cutFrom_of_mem_entries`).  An update
of such an array can always be written (`exists_render?`).

Replacements are accepted exactly when each of them is a piece of the text
(`exists_apply_iff`).  Those of a placed tree are, and so fixing with the check of dependency
arrays does not fail (`suggestions_accepted`).
-/
import HookLint.Proofs.Arguments
import HookLint.Proofs.ArrayRows
import HookLint.Proofs.Comparison
import HookLint.Proofs.Passes
import HookLint.Proofs.Replacements
import HookLint.Proofs.Spelling

namespace HookLint.Syntax

open HookLint.Text

/-! ### Trees over a text -/

/-- The range of a node is a piece of a text. -/
def Label.InText (source : String) (l : Label) : Prop :=
  l.start ≤ l.stop ∧ l.stop ≤ byteLength source ∧
    isBoundary source l.start = true ∧ isBoundary source l.stop = true

/-- The range of every node is a piece of a text, and lies in that of its parent. -/
def Tree.Placed (source : String) (t : Tree) : Prop :=
  ∀ u ∈ t.subtrees, u.label.InText source ∧
    ∀ c ∈ u.children, u.label.start ≤ c.label.start ∧ c.label.stop ≤ u.label.stop

instance (source : String) (l : Label) : Decidable (l.InText source) :=
  inferInstanceAs (Decidable (_ ∧ _ ∧ _ ∧ _))

instance (source : String) (t : Tree) : Decidable (t.Placed source) :=
  inferInstanceAs (Decidable (∀ u ∈ t.subtrees, u.label.InText source ∧
    ∀ c ∈ u.children, u.label.start ≤ c.label.start ∧ c.label.stop ≤ u.label.stop))

namespace Tree.Placed

variable {source : String} {t : Tree} {a b : Site}

theorem inText (h : t.Placed source) (ha : Site.Under (.root t) a) : a.label.InText source :=
  (h a.tree ha.tree_mem).1

/-- What stands below a site stands in its range. -/
theorem range_le (h : t.Placed source) (ha : Site.Under (.root t) a) (hab : Site.Under a b) :
    a.start ≤ b.start ∧ b.stop ≤ a.stop := by
  induction hab with
  | self => exact ⟨Nat.le_refl _, Nat.le_refl _⟩
  | @child s c has hc ih =>
      have hnested := (h s.tree (ha.trans has).tree_mem).2 c.tree (Site.tree_mem_of_mem_children hc)
      exact ⟨Nat.le_trans ih.1 hnested.1, Nat.le_trans hnested.2 ih.2⟩

theorem slice?_text (h : t.Placed source) (ha : Site.Under (.root t) a) :
    slice? source a.start a.stop = some (a.text source) := by
  obtain ⟨hle, -, hstart, hstop⟩ := h.inText ha
  obtain ⟨text, htext⟩ := exists_slice? hle hstart hstop
  rw [Site.text, htext]
  rfl

/-- A site is cut out of the text of a site above it. -/
theorem slice?_text_of_under (h : t.Placed source) (ha : Site.Under (.root t) a)
    (hab : Site.Under a b) :
    slice? (a.text source) (b.start - a.start) (b.stop - a.start) = some (b.text source) := by
  obtain ⟨hstart, hstop⟩ := h.range_le ha hab
  have hle : b.start ≤ b.stop := (h.inText (ha.trans hab)).1
  rw [slice?_slice? (h.slice?_text ha) hstart hle hstop]
  exact h.slice?_text (ha.trans hab)

end Tree.Placed

end HookLint.Syntax

namespace HookLint.Fix

/-! ### Replacements that are accepted -/

variable {source : String}

/-- A site of a placed tree can be replaced. -/
theorem checkPlace_ofSite {root : Syntax.Tree} (hplaced : root.Placed source) {site : Syntax.Site}
    (hsite : Syntax.Site.Under (.root root) site) (text : String) :
    checkPlace source ⟨Span.ofSite source site, text⟩ = .ok () := by
  obtain ⟨hle, hlen, hstart, hstop⟩ := hplaced.inText hsite
  have hbackwards : ¬ site.stop < site.start := Nat.not_lt.mpr hle
  have houtside : ¬ Text.byteLength source < site.stop := Nat.not_lt.mpr hlen
  simp [checkPlace, Span.ofSite, hbackwards, houtside, hstart, hstop]

end HookLint.Fix

namespace HookLint.Dependency

open HookLint.Syntax HookLint.Scope HookLint.Text

/-! ### Entries of an array -/

/-- Where every range is a piece of the array, the updated array can be written. -/
theorem ArrayText.exists_render? {array : String} {declared : List ByteRange}
    (hpieces : ∀ r ∈ declared, ∃ t, slice? array r.start r.stop = some t) (kept : List Nat)
    (added : List String) : ∃ text, ArrayText.render? array declared kept added = some text := by
  unfold ArrayText.render?
  dsimp only
  split
  · exact ⟨_, rfl⟩
  · split
    · rename_i layout hlayout
      rw [if_pos (ArrayText.cutsCleanly_of_layout? hlayout hpieces kept)]
      exact ⟨_, rfl⟩
    · split
      · exact ⟨_, rfl⟩
      · exact ⟨_, rfl⟩

/-- An entry stands in its array, and is cut out of the array's text as it stands in the
source. -/
structure Entry.CutFrom (source : String) (array : Site) (e : Entry) : Prop where
  /-- The entry's offsets can be counted from the start of the array. -/
  start_le : array.start ≤ e.site.start
  start_le_stop : array.start ≤ e.site.stop
  own : slice? source e.site.start e.site.stop = some e.text
  cut : slice? (array.text source) (Subject.rangeIn array e).start (Subject.rangeIn array e).stop =
    some e.text

theorem Entry.site_ofSite (g : Graph) (source : String) (site : Site) :
    (Entry.ofSite g source site).site = site ∧
      (Entry.ofSite g source site).text = site.text source := by
  unfold Entry.ofSite
  dsimp only
  split
  · exact ⟨rfl, rfl⟩
  · split <;> exact ⟨rfl, rfl⟩

section Entries

variable {source : String} {root : Tree} {convention : Hook.Convention} {call : Hook.Call}
  {g : Graph} {deps array : Site} {entries : List Entry}

theorem array_under (hcall : call ∈ Hook.calls source convention root)
    (hdeps : call.dependencies = some deps)
    (hdecl : Declared.ofSite g source deps = .array array entries) :
    Site.Under (.root root) array := by
  obtain ⟨hunder, list, argument, hparts⟩ := Hook.parts_of_mem_calls hcall
  have hlist := Site.mem_children_of_field? hparts.arguments
  have hitem := Site.mem_children_of_mem_namedChildren
    (List.mem_of_getElem? (hparts.dependencies ▸ hdeps))
  rw [(Declared.of_array hdecl).1]
  exact (Site.Under.child (.child hunder hlist) hitem).trans (Visit.under_unwrap deps)

/-- In a placed tree the entries of an array are cut out of its text. -/
theorem cutFrom_of_mem_entries (hplaced : root.Placed source)
    (hcall : call ∈ Hook.calls source convention root) (hdeps : call.dependencies = some deps)
    (hdecl : Declared.ofSite g source deps = .array array entries) {e : Entry} (he : e ∈ entries) :
    e.CutFrom source array := by
  have harray := array_under hcall hdeps hdecl
  obtain ⟨rfl, -, rfl⟩ := Declared.of_array hdecl
  obtain ⟨site, hsite, rfl⟩ := List.mem_map.mp he
  obtain ⟨hself, htext⟩ := Entry.site_ofSite g source site
  have hunder : Site.Under deps.unwrap site :=
    .of_child (Site.mem_children_of_mem_namedChildren hsite)
  obtain ⟨hstart, -⟩ := hplaced.range_le harray hunder
  refine ⟨?_, ?_, ?_, ?_⟩
  · rw [hself]
    exact hstart
  · rw [hself]
    exact Nat.le_trans hstart (hplaced.inText (harray.trans hunder)).1
  · rw [hself, htext]
    exact hplaced.slice?_text (harray.trans hunder)
  · rw [Subject.rangeIn, hself, htext]
    exact hplaced.slice?_text_of_under harray hunder

/-- The entries of an update are the kept ones as they are written, then those added. -/
theorem entries_of_cutFrom (hcut : ∀ e ∈ entries, e.CutFrom source array) (kept : List Nat)
    (added : List String) :
    ArrayText.entries (array.text source) (entries.map (Subject.rangeIn array)) kept added =
      (kept.filterMap (entries[·]?)).map (·.text) ++ added := by
  unfold ArrayText.entries
  rw [List.map_filterMap]
  congr 1
  refine List.filterMap_congr fun i _ => ?_
  rw [List.getElem?_map]
  cases he : entries[i]? with
  | none => rfl
  | some e => exact (hcut e (List.mem_of_getElem? he)).cut

end Entries

/-! ### Findings with a suggestion -/

namespace Subject

/-- A finding on an array suggests the kept entries as they are written, then the missing paths,
in place of the array. -/
structure Suggests (s : Subject) (array : Site) (entries : List Entry) (d : Diagnostic) : Prop where
  kind : d.kind = .dependencyMismatch
  missing : d.missing = (s.diff entries).missing.map (·.text)
  written : ArrayText.entries (array.text s.source) (entries.map (rangeIn array))
    (s.diff entries).kept d.missing =
      ((s.diff entries).kept.filterMap (entries[·]?)).map (·.text) ++ d.missing
  suggestion : ∃ text,
    ArrayText.render? (array.text s.source) (entries.map (rangeIn array)) (s.diff entries).kept
      d.missing = some text ∧
    d.suggestion = some
      { description := ArrayText.describe
          (((s.diff entries).kept.filterMap (entries[·]?)).map (·.text) ++ d.missing)
        replacement := ⟨Span.ofSite s.source array, text⟩ }

theorem suggests_mismatch {s : Subject} {array : Site} {entries : List Entry}
    (hcut : ∀ e ∈ entries, e.CutFrom s.source array) (message : String) :
    s.Suggests array entries (s.mismatch array entries (s.diff entries) message) := by
  have hpieces : ∀ r ∈ entries.map (rangeIn array),
      ∃ t, slice? (array.text s.source) r.start r.stop = some t := by
    intro r hr
    obtain ⟨e, he, rfl⟩ := List.mem_map.mp hr
    exact ⟨e.text, (hcut e he).cut⟩
  obtain ⟨text, htext⟩ := ArrayText.exists_render? hpieces (s.diff entries).kept
    ((s.diff entries).missing.map (·.text))
  refine ⟨rfl, rfl, entries_of_cutFrom hcut _ _, text, htext, ?_⟩
  show s.suggestion? array entries (s.diff entries) = _
  unfold suggestion?
  dsimp only
  rw [htext, Option.map_some, entries_of_cutFrom hcut]
  rfl

/-- A finding has no suggestion, or is the one on an array that is not as it should be. -/
theorem mem_check {s : Subject} {d : Diagnostic} (h : d ∈ s.check) :
    IsRemark d ∨
      ∃ deps array entries message, s.call.dependencies = some deps ∧
        Declared.ofSite s.graph s.source deps = .array array entries ∧
        d = s.mismatch array entries (s.diff entries) message := by
  unfold check at h
  split at h
  · contradiction
  · rename_i deps hdeps
    rcases List.mem_append.mp h with h | h
    · rcases List.mem_append.mp h with h | h
      · exact Or.inl (isRemark_of_mem_asyncEffect h)
      · exact Or.inl (isRemark_of_mem_staleAssignments h)
    · unfold onDependencies at h
      split at h
      · rw [List.mem_singleton.mp h]
        exact Or.inl (isRemark_finding (by simp) _ _)
      · rw [List.mem_singleton.mp h]
        exact Or.inl (isRemark_finding (by simp) _ _)
      · rename_i array entries hdecl
        rcases List.mem_append.mp h with h | h
        · rcases List.mem_append.mp h with h | h
          · exact Or.inl (isRemark_of_mem_literals h)
          · exact Or.inl (isRemark_of_mem_firstComplex h)
        · rcases s.judgement_cases array entries with ⟨-, hremarks⟩ | ⟨-, message, -, hone⟩
          · exact Or.inl (hremarks d h)
          · rw [hone] at h
            exact Or.inr ⟨deps, array, entries, message, hdeps, hdecl, List.mem_singleton.mp h⟩

end Subject

section Findings

variable {source : String} {root : Tree} {graph : Graph} {options : Options} {d : Diagnostic}

/-- What the findings on a placed tree suggest. -/
theorem suggests_of_mem_analyze (hplaced : root.Placed source)
    (hd : d ∈ analyze options source graph root) :
    d.kind ≠ .dependencyMismatch ∧ d.suggestion = none ∨
      ∃ call ∈ Hook.calls source options.convention root, ∃ deps array entries,
        call.dependencies = some deps ∧
        Declared.ofSite graph source deps = .array array entries ∧
        Subject.Suggests { source, graph, options, call } array entries d := by
  obtain ⟨call, hcall, hd⟩ := List.mem_flatMap.mp hd
  rcases Subject.mem_check hd with hnone | ⟨deps, array, entries, message, hdeps, hdecl, rfl⟩
  · exact Or.inl hnone
  · refine Or.inr ⟨call, hcall, deps, array, entries, hdeps, hdecl, ?_⟩
    exact Subject.suggests_mismatch
      (fun e => cutFrom_of_mem_entries hplaced hcall hdeps hdecl) message

theorem checkPlace_of_mem_replacements (hplaced : root.Placed source) {found : List Diagnostic}
    (hfound : ∀ d ∈ found, ∃ options graph, d ∈ analyze options source graph root)
    {r : Replacement} (hr : r ∈ Fix.replacements found) : Fix.checkPlace source r = .ok () := by
  obtain ⟨d, hd, hr⟩ := List.mem_filterMap.mp hr
  obtain ⟨suggestion, hsuggestion, rfl⟩ := Option.map_eq_some_iff.mp hr
  obtain ⟨options, graph, hd⟩ := hfound d hd
  rcases suggests_of_mem_analyze hplaced hd with
    ⟨-, hnone⟩ | ⟨call, hcall, deps, array, entries, hdeps, hdecl, hsuggests⟩
  · rw [hnone] at hsuggestion
    contradiction
  · obtain ⟨text, -, hsome⟩ := hsuggests.suggestion
    rw [hsome, Option.some.injEq] at hsuggestion
    subst hsuggestion
    exact Fix.checkPlace_ofSite hplaced (array_under hcall hdeps hdecl) text

end Findings

/-- What is found by checks of dependency arrays only. -/
theorem mem_analyze_of_mem_checkSource {engine : Engine} {u : SourceUnit} {d : Diagnostic}
    (hrules : ∀ rule ∈ engine.rules, ∃ options, rule = Rule.exhaustiveDeps options)
    (hd : d ∈ (engine.checkSource u).diagnostics) :
    ∃ options graph, d ∈ analyze options u.source graph u.tree := by
  unfold Engine.checkSource Engine.report at hd
  dsimp only at hd
  rw [List.mem_mergeSort] at hd
  obtain ⟨outcome, houtcome, hd⟩ := List.mem_flatMap.mp hd
  obtain ⟨rule, hrule, rfl⟩ := List.mem_map.mp houtcome
  obtain ⟨options, rfl⟩ := hrules rule hrule
  exact ⟨options, Graph.build u.source u.tree, hd⟩

/-- Where every text is parsed into a tree placed in it, no suggestion is misplaced. -/
theorem exists_fixText {engine : Engine} {parse : Nat → String → Tree}
    (hrules : ∀ rule ∈ engine.rules, ∃ options, rule = Rule.exhaustiveDeps options)
    (hparse : ∀ passes text, (parse passes text).Placed text) (path source : String) :
    ∃ f, Fix.fixText (Fix.engineChecker engine parse path) source = .ok f := by
  cases hfix : Fix.fixText (Fix.engineChecker engine parse path) source with
  | ok f => exact ⟨f, rfl⟩
  | error fault =>
      obtain ⟨last, final, -, hfault⟩ := Fix.misplaced_of_fixWithin hfix
      have hfound : ∀ d ∈ Fix.engineChecker engine parse path last final,
          ∃ options graph, d ∈ analyze options final graph (parse last final) := fun d hd =>
        mem_analyze_of_mem_checkSource (u := ⟨path, final, parse last final⟩) hrules hd
      obtain ⟨out, hout⟩ := (Fix.exists_apply_iff _).mpr fun r =>
        checkPlace_of_mem_replacements (hparse last final) hfound
      rw [hfault] at hout
      contradiction

/-- Suggestions are well placed and accepted.  In a tree whose nodes stand in the text and in
their parents, the entries of every dependency array are cut out of it as they are written, a
finding suggests the kept ones followed by the missing paths, and all suggestions together can be
made.  So fixing by checks of dependency arrays always gives a result. -/
theorem suggestions_accepted :
    (∀ (options : Options) (source : String) (graph : Graph) (root : Tree), root.Placed source →
      (∀ call ∈ Hook.calls source options.convention root, ∀ deps array entries,
        call.dependencies = some deps → Declared.ofSite graph source deps = .array array entries →
          ∀ e ∈ entries, e.CutFrom source array) ∧
      (∀ d ∈ analyze options source graph root,
        d.kind ≠ .dependencyMismatch ∧ d.suggestion = none ∨
          ∃ call ∈ Hook.calls source options.convention root, ∃ deps array entries,
            call.dependencies = some deps ∧
            Declared.ofSite graph source deps = .array array entries ∧
            Subject.Suggests { source, graph, options, call } array entries d) ∧
      ∃ out, Fix.apply source (Fix.replacements (analyze options source graph root)) = .ok out) ∧
    ∀ (engine : Engine) (parse : Nat → String → Tree) (path source : String),
      (∀ rule ∈ engine.rules, ∃ options, rule = Rule.exhaustiveDeps options) →
      (∀ passes text, (parse passes text).Placed text) →
      (Language.ofPath? path).isSome = true →
        ∃ r, Fix.fixSource engine parse path source = .ok r := by
  refine ⟨fun options source graph root hplaced => ⟨?_, ?_, ?_⟩,
    fun engine parse path source hrules hparse hlanguage => ?_⟩
  · intro call hcall deps array entries hdeps hdecl e
    exact cutFrom_of_mem_entries hplaced hcall hdeps hdecl
  · intro d hd
    exact suggests_of_mem_analyze hplaced hd
  · refine (Fix.exists_apply_iff _).mpr fun r hr => ?_
    exact checkPlace_of_mem_replacements hplaced (fun d hd => ⟨options, graph, hd⟩) hr
  · obtain ⟨f, hf⟩ := exists_fixText hrules hparse path source
    exact ⟨_, Fix.fixSource_eq_ok_iff.mpr ⟨hlanguage, f, hf, rfl⟩⟩

def linedSource : String := "é => useMemo(() => é.a, ([\n  é.b\n]))"

/-- The tree of `linedSource`: the array is parenthesised, on lines of its own, and names a
character of two bytes. -/
def linedTree : Tree :=
  .node ⟨0, "program", .other, true, false, [], 0, 39⟩
    [.node ⟨1, "arrow_function", .arrowFunction, true, false, [], 0, 39⟩
      [.node ⟨2, "identifier", .identifier, true, false, [.parameter], 0, 2⟩ [],
      .node ⟨3, "call_expression", .call, true, false, [.body], 6, 39⟩
        [.node ⟨4, "identifier", .identifier, true, false, [.function], 6, 13⟩ [],
        .node ⟨5, "arguments", .arguments, true, false, [.arguments], 13, 39⟩
          [.node ⟨6, "arrow_function", .arrowFunction, true, false, [], 14, 24⟩
            [.node ⟨7, "formal_parameters", .other, true, false, [.parameters], 14, 16⟩ [],
            .node ⟨8, "member_expression", .member, true, false, [.body], 20, 24⟩
              [.node ⟨9, "identifier", .identifier, true, false, [.object], 20, 22⟩ [],
              .node ⟨10, "property_identifier", .other, true, false, [.property], 23, 24⟩ []]],
          .node ⟨11, "parenthesized_expression", .parenthesized, true, false, [], 26, 38⟩
            [.node ⟨12, "array", .array, true, false, [], 27, 37⟩
              [.node ⟨13, "member_expression", .member, true, false, [], 31, 35⟩
                [.node ⟨14, "identifier", .identifier, true, false, [.object], 31, 33⟩ [],
                .node ⟨15, "property_identifier", .other, true, false, [.property], 34, 35⟩ []]]]]]]]

def linedOptions : Options := { severity := .high, convention := .default }

/-- The argument of `linedSource` that holds the array. -/
def linedDeps : Site :=
  (Hook.firstCall linedSource linedTree (by decide +kernel)).dependencies.get (by decide +kernel)

/-- The entries of the array of `linedSource`. -/
def linedEntries : List Entry :=
  linedDeps.unwrap.namedChildren.map (Entry.ofSite (Graph.build linedSource linedTree) linedSource)

/-- The tree of an empty text. -/
def blankTree : Tree := .node ⟨0, "program", .other, true, false, [], 0, 0⟩ []

/-- Gives `linedSource` its tree, and finds nothing in any other text. -/
def linedParse (text : String) : Tree := if text = linedSource then linedTree else blankTree

theorem suggestions_accepted_lined :
    linedTree.Placed linedSource ∧
    (linedEntries.map (·.text) = ["é.b"] ∧
      ∀ e ∈ linedEntries, e.CutFrom linedSource linedDeps.unwrap) ∧
    (∃ out, Fix.apply linedSource (Fix.replacements
      (analyze linedOptions linedSource (Graph.build linedSource linedTree) linedTree)) = .ok out) ∧
    ∃ r, Fix.fixSource { rules := [Rule.exhaustiveDeps linedOptions] } (fun _ => linedParse) "a.js"
      linedSource = .ok r := by
  have hplaced : linedTree.Placed linedSource := by decide +kernel
  have hparse : ∀ (passes : Nat) (text : String), (linedParse text).Placed text := by
    intro passes text
    unfold linedParse
    split
    · subst text
      exact hplaced
    · intro u hu
      obtain rfl := List.mem_singleton.mp hu
      have hzero : isBoundary text 0 = true := isBoundary_iff.mpr ⟨"", text, by simp, rfl⟩
      exact ⟨⟨Nat.le_refl _, Nat.zero_le _, hzero, hzero⟩, fun c hc => by contradiction⟩
  obtain ⟨hsource, hfix⟩ := suggestions_accepted
  obtain ⟨hcut, -, happly⟩ :=
    hsource linedOptions linedSource (Graph.build linedSource linedTree) linedTree hplaced
  have hdecl : Declared.ofSite (Graph.build linedSource linedTree) linedSource linedDeps =
      .array linedDeps.unwrap linedEntries :=
    Declared.ofSite_of_array (by decide +kernel) (by decide +kernel)
  refine ⟨hplaced, ⟨by decide +kernel, ?_⟩, happly,
    hfix _ _ "a.js" linedSource ?_ hparse (by decide +kernel)⟩
  · exact hcut _ (Hook.firstCall_mem _) linedDeps _ _ (Option.some_get _).symm hdecl
  · intro rule hrule
    exact ⟨linedOptions, List.mem_singleton.mp hrule⟩

end HookLint.Dependency

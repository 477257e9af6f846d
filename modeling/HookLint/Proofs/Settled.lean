/-
Applying a suggestion settles the difference.

Seen from the scope a hook call stands in, a name means one thing.  What the callback
reads from outside means that (`lookup?_of_mem_reads`), and so does the first name of
every entry of the array (`root_of_entry`), since array and callback stand side by
side.  So a declared path that covers a required one starts at the same binding; it is
neither external nor a mutable slot, and nothing that is required hangs on an entry
that the comparison throws out (`diff_settled`).
-/
import HookLint.Dependency.Analysis
import HookLint.Proofs.FreeVariables
import HookLint.Proofs.Spelling
import HookLint.Proofs.Verdicts

namespace HookLint.Dependency

open HookLint.Syntax HookLint.Scope HookLint.Dependency.Path

variable {source : String} {root : Tree} {convention : Hook.Convention} {call : Hook.Call}

/-! ### The scope a call stands in -/

/-- The callback opened `scope` directly inside the scope `beside`, in the regions `inside`. -/
structure StandsIn (source : String) (root : Tree) (callback : Site) (scope beside : ScopeId)
    (inside : List Site) : Prop where
  entered : ∃ kind, (inside, .enter kind callback) ∈ traced [] (unitEvents source root)
  chain : (Graph.build source root).ancestors scope =
    scope :: (Graph.build source root).ancestors beside
  here : ∀ b e, (b, e) ∈ Graph.unitStages source root → b.regions = inside →
    b.stack = (Graph.build source root).ancestors beside

theorem exists_standsIn (hnum : root.Numbered) (hone : root.OneField)
    (hcall : call ∈ Hook.calls source convention root) {scope : ScopeId}
    (hscope : (Graph.build source root).scopeAt? call.callback = some scope) :
    ∃ beside inside, StandsIn source root call.callback scope beside inside := by
  obtain ⟨hunder, list, argument, hparts⟩ := Hook.parts_of_mem_calls hcall
  have hsite := Graph.siteOf?_scopeAt? hnum (hparts.callback_under hunder) hscope
  obtain ⟨b, kind, hstage⟩ := Graph.exists_stage_of_siteOf? hsite
  have henter := Graph.mem_traced_of_mem_stages hstage
  have hopen := Graph.open_of_mem_unitStages hstage
  obtain ⟨v, hv, -, hinside, -⟩ :=
    Visit.arrives_of_enter hparts.callback_ne_root henter
  cases hstack : b.stack with
  | nil =>
      -- The unit's own region is open around every call.
      have hmem := hv.root_mem_inside
      rw [hinside, Builder.regions, hstack] at hmem
      contradiction
  | cons top below =>
      have hbeside : (Graph.build source root).ancestors top = b.stack := by
        rw [(Graph.extends_build hstage).ancestors (hopen.lt_size top (hstack ▸ List.mem_cons_self)),
          hopen.chain top below (hstack ▸ List.suffix_refl _), hstack]
      refine ⟨top, b.regions, ⟨kind, henter⟩, ?_, fun b' e hstage' hregions => ?_⟩
      · rw [Graph.ancestors_of_enter hnum hone hstage hsite, hbeside]
      · rw [hbeside]
        exact Graph.stack_eq_of_regions hnum hone hstage' hstage hregions

/-! ### What is read -/

/-- A read of a callback is a free reference, with its path. -/
theorem mem_reads {g : Graph} {callback : Site} {read : Read}
    (h : read ∈ (extract g source callback).reads) :
    ∃ scope r, g.scopeAt? callback = some scope ∧
      (r, read.binding) ∈ outerReferences g scope ∧ read.site = r.site ∧
      read.path = pathAt source r.site := by
  unfold extract at h
  split at h
  · contradiction
  · rename_i scope hscope
    have hmem := (List.mergeSort_perm _ _).mem_iff.mp h
    obtain ⟨⟨r, b⟩, hr, rfl⟩ := List.mem_map.mp hmem
    exact ⟨scope, r, hscope, (List.mem_filter.mp hr).1, rfl, rfl⟩

/-- What a callback reads from outside is what its name means beside the callback. -/
theorem lookup?_of_mem_outerReferences {callback : Site} {scope beside : ScopeId} {inside : List Site}
    (hstands : StandsIn source root callback scope beside inside) {r : Reference} {b : BindingId}
    (h : (r, b) ∈ outerReferences (Graph.build source root) scope) :
    (Graph.build source root).lookup? beside (r.site.text source) = some b ∧
      Site.Under (Site.root root) r.site ∧ isNameKind r.site.kind = true := by
  obtain ⟨hr, hb, hin, hout⟩ := mem_outerReferences.mp h
  obtain ⟨-, -, -, hlookup⟩ := Graph.exists_stage_of_mem_references hr
  obtain ⟨hunder, hkind, hname⟩ := Graph.site_of_mem_references hr
  rw [hb] at hlookup
  rw [← hname]
  exact ⟨Graph.lookup?_beside (Graph.sound_build source root) hstands.chain hout _ hin hlookup.symm,
    hunder, hkind⟩

/-- The name a read starts at means the read's binding beside the callback. -/
structure ReadBeside (source : String) (root : Tree) (beside : ScopeId) (read : Read) : Prop where
  under : Site.Under (Site.root root) read.site
  kind : isNameKind read.site.kind = true
  path : read.path = pathAt source read.site
  meaning : (Graph.build source root).lookup? beside (read.site.text source) = some read.binding

theorem readBeside_of_mem_reads (hnum : root.Numbered) (hone : root.OneField)
    (hcall : call ∈ Hook.calls source convention root) :
    ∃ beside inside, ∀ read ∈ (extract (Graph.build source root) source call.callback).reads,
      (∃ scope, StandsIn source root call.callback scope beside inside) ∧
      ReadBeside source root beside read := by
  cases hscope : (Graph.build source root).scopeAt? call.callback with
  | none =>
      refine ⟨0, [], fun read hread => ?_⟩
      obtain ⟨scope, _, hsome, _⟩ := mem_reads hread
      rw [hscope] at hsome
      contradiction
  | some scope =>
      obtain ⟨beside, inside, hstands⟩ := exists_standsIn hnum hone hcall hscope
      refine ⟨beside, inside, fun read hread => ⟨⟨scope, hstands⟩, ?_⟩⟩
      obtain ⟨scope', r, hscope', hr, hsite, hpath⟩ := mem_reads hread
      rw [hscope] at hscope'
      injection hscope' with hscope'
      subst hscope'
      obtain ⟨hlookup, hunder, hkind⟩ := lookup?_of_mem_outerReferences hstands hr
      rw [← hsite] at hpath hlookup hunder hkind
      exact ⟨hunder, hkind, hpath, hlookup⟩

/-- The path of a read is the name its binding has beside the callback, and keys. -/
structure ReadOf (g : Graph) (beside : ScopeId) (read : Read) (name : String) (keys : List String) :
    Prop where
  path : read.path = ofKeys name keys
  meaning : g.lookup? beside name = some read.binding
  plainName : Plain name
  plainKeys : ∀ k ∈ keys, Plain k
  notCurrent : ∀ k ∈ keys, k ≠ "current"

theorem readOf_of_mem_reads (hnum : root.Numbered) (hg : Grammatical source root)
    (hcall : call ∈ Hook.calls source convention root) :
    ∃ beside inside, ∀ read ∈ (extract (Graph.build source root) source call.callback).reads,
      (∃ scope, StandsIn source root call.callback scope beside inside) ∧
      ∃ name keys, ReadOf (Graph.build source root) beside read name keys := by
  obtain ⟨beside, inside, hreads⟩ := readBeside_of_mem_reads hnum hg.oneField hcall
  refine ⟨beside, inside, fun read hread => ?_⟩
  obtain ⟨hstands, hbeside⟩ := hreads read hread
  obtain ⟨keys, hkeys, hall⟩ := pathAt_eq_ofKeys hg hbeside.under
  exact ⟨hstands, _, keys, hbeside.path.trans hkeys, hbeside.meaning,
    (hg.spelled _ hbeside.under).name hbeside.kind, fun k hk => (hall k hk).1,
    fun k hk => (hall k hk).2⟩

/-- A path is read of one binding only. -/
theorem binding_of_path (hnum : root.Numbered) (hg : Grammatical source root)
    (hcall : call ∈ Hook.calls source convention root) {read read' : Read}
    (hread : read ∈ (extract (Graph.build source root) source call.callback).reads)
    (hread' : read' ∈ (extract (Graph.build source root) source call.callback).reads)
    (hpath : read.path = read'.path) : read.binding = read'.binding := by
  obtain ⟨beside, inside, hreads⟩ := readOf_of_mem_reads hnum hg hcall
  obtain ⟨-, name, keys, hof⟩ := hreads read hread
  obtain ⟨-, name', keys', hof'⟩ := hreads read' hread'
  have hcov : (ofKeys name keys).covers (ofKeys name' keys') = true := by
    rw [← hof.path, ← hof'.path, hpath]
    exact covers_refl _
  rw [covers_ofKeys hof.plainName hof'.plainName hof.plainKeys hof'.plainKeys] at hcov
  exact Option.some.inj (hof.meaning.symm.trans (hcov.1 ▸ hof'.meaning))

/-! ### What is declared -/

/-- The identifier an entry starts at means what it means beside the callback. -/
theorem exists_ident_of_entry (hnum : root.Numbered) (hone : root.OneField)
    (hobjects : ProperObjects root) (hcall : call ∈ Hook.calls source convention root)
    {scope beside : ScopeId} {inside : List Site}
    (hstands : StandsIn source root call.callback scope beside inside) {deps : Site}
    (hdeps : call.dependencies = some deps) {array : Site} {entries : List Entry}
    (hdecl : Declared.ofSite (Graph.build source root) source deps = .array array entries) {e : Entry}
    (he : e ∈ entries) {path : Path} (hpath : e.path? = some path) :
    ∃ site ident, Site.Under (Site.root root) site ∧ Spells source site path ident ∧
      e.root = (Graph.build source root).lookup? beside (ident.text source) := by
  obtain ⟨kind, henter⟩ := hstands.entered
  have harrives := Hook.arrives_dependencies hcall hdeps henter
  -- The array, the entry and its identifier are read in the regions of the call.
  obtain ⟨-, hkind, rfl⟩ := Declared.of_array hdecl
  obtain ⟨site, hsite, rfl⟩ := List.mem_map.mp he
  have hreads : Visit.Reaches source ⟨inside, .value, deps⟩ ⟨inside, .value, site⟩ :=
    (reaches_unwrap inside deps).trans
      (reaches_namedChild inside (by rw [hkind]; rfl) hsite)
  have hunder : Site.Under (Site.root root) site := (harrives.step hreads).under
  obtain ⟨ident, hspells, hroot⟩ := Entry.spells_of_path? hpath
  obtain ⟨hident, -⟩ := hspells.ident_kind hunder
  have hrefer := refer_of_arrives hident
    (harrives.step (hreads.trans (hspells.reaches hobjects hunder inside)))
  obtain ⟨b, hstage, hregions⟩ := Graph.exists_stage_of_mem_traced hrefer
  obtain ⟨r, hr, hrsite, hresolved⟩ := Graph.mem_references_of_stage hstage
  refine ⟨site, ident, hunder, hspells, ?_⟩
  have hancestors : (Graph.build source root).ancestors b.current =
      (Graph.build source root).ancestors beside :=
    (Graph.ancestors_current hstage rfl).trans (hstands.here b _ hstage hregions)
  have hreference := Graph.referenceAt?_of_mem hnum hone hr
  rw [hroot, ← hrsite, Graph.resolvedAt?, hreference, Option.bind_some, hresolved, hrsite,
    Graph.lookup?, Graph.lookup?, Graph.owner?, Graph.owner?, hancestors]

/-- The first name of an entry means what it means beside the callback. -/
theorem root_of_entry (hnum : root.Numbered) (hg : Grammatical source root)
    (hcall : call ∈ Hook.calls source convention root) {scope beside : ScopeId} {inside : List Site}
    (hstands : StandsIn source root call.callback scope beside inside) {deps : Site}
    (hdeps : call.dependencies = some deps) {array : Site} {entries : List Entry}
    (hdecl : Declared.ofSite (Graph.build source root) source deps = .array array entries) {e : Entry}
    (he : e ∈ entries) {path : Path} (hpath : e.path? = some path) :
    ∃ name keys, path = ofKeys name keys ∧ Plain name ∧ (∀ k ∈ keys, Plain k) ∧
      e.root = (Graph.build source root).lookup? beside name := by
  obtain ⟨site, ident, hunder, hspells, hroot⟩ := exists_ident_of_entry hnum hg.oneField
    hg.properObjects hcall hstands hdeps hdecl he hpath
  obtain ⟨keys, rfl, hkeys⟩ := hspells.eq_ofKeys hg hunder
  obtain ⟨hident, hidentUnder⟩ := hspells.ident_kind hunder
  exact ⟨_, keys, rfl, (hg.spelled _ hidentUnder).name (by rw [hident]; rfl), hkeys, hroot⟩

/-! ### The settled difference -/

/-- An entry for a path that starts at the binding of a read with that path. -/
def Subject.Supplies (s : Subject) (p : Path) (e : Entry) : Prop :=
  e.kind = .path p ∧ ∃ r ∈ s.extraction.reads, r.path = p ∧ e.root = some r.binding

/-- Keeping what a comparison keeps and adding an entry for all that is missing leaves nothing
missing, unnecessary or duplicate. -/
theorem diff_settled {s : Subject} (hnum : root.Numbered) (hg : Grammatical s.source root)
    (hgraph : s.graph = Graph.build s.source root)
    (hcall : s.call ∈ Hook.calls s.source s.options.convention root) {deps : Site}
    (hdeps : s.call.dependencies = some deps) {array : Site} {entries added : List Entry}
    (hdecl : Declared.ofSite s.graph s.source deps = .array array entries)
    (hadded : List.Forall₂ s.Supplies (s.diff entries).missing added) :
    let settled := (s.diff entries).kept.filterMap (entries[·]?) ++ added
    (s.diff settled).isClean = true ∧ (s.diff settled).kept = List.range settled.length := by
  obtain ⟨beside, inside, hreads⟩ := readOf_of_mem_reads hnum hg hcall
  rw [← hgraph] at hreads
  -- A path and a requirement it covers start at the same binding.
  have hsame : ∀ {name name' keys keys' read}, ReadOf s.graph beside read name' keys' →
      Plain name → (∀ k ∈ keys, Plain k) → (ofKeys name keys).covers read.path = true →
      s.graph.lookup? beside name = some read.binding ∧ (ofKeys name keys).isMutableSlot = false := by
    intro name name' keys keys' read hread hname hkeys hcov
    rw [hread.path, covers_ofKeys hname hread.plainName hkeys hread.plainKeys] at hcov
    obtain ⟨rfl, hsub⟩ := hcov
    refine ⟨hread.meaning, ?_⟩
    by_contra hslot
    have hcurrent := isMutableSlot_ofKeys hname hkeys (by simpa using hslot)
    exact hread.notCurrent _ (hsub.subset hcurrent) rfl
  refine compare_settles (nodup_firsts _) ?_ ?_
  · intro e he d q hpath hq hcov
    obtain ⟨read, hread, rfl, hclass⟩ := mem_reactive.mp hq
    obtain ⟨⟨scope, hstands⟩, name', keys', hreadOf⟩ := hreads read hread
    obtain ⟨name, keys, rfl, hname, hkeys, hroot⟩ :=
      root_of_entry hnum hg hcall hstands hdeps (hgraph ▸ hdecl) he hpath
    obtain ⟨hlookup, hslot⟩ := hsame hreadOf hname hkeys hcov
    refine ⟨hslot, ?_⟩
    rw [Entry.stability, hroot, ← hgraph, hlookup]
    show s.classifier.classify read.binding ≠ _
    rw [hclass]
    exact Stability.noConfusion
  · refine forall₂_imp_mem hadded fun p hp e he => ?_
    obtain ⟨hkind, read, hread, rfl, hroot⟩ := he
    obtain ⟨read', hread', hpath', hclass⟩ := mem_reactive.mp (mem_missing hp).1
    obtain ⟨-, name, keys, hreadOf⟩ := hreads read hread
    obtain ⟨-, hslot⟩ := hsame hreadOf hreadOf.plainName hreadOf.plainKeys
      (hreadOf.path ▸ covers_refl _)
    have hbinding : read.binding = read'.binding := by
      unfold Subject.extraction at hread hread'
      rw [hgraph] at hread hread'
      exact binding_of_path hnum hg hcall hread hread' hpath'.symm
    refine ⟨hkind, hreadOf.path ▸ hslot, ?_⟩
    rw [Entry.stability, hroot]
    show s.classifier.classify read.binding ≠ _
    rw [hbinding, hclass]
    exact Stability.noConfusion

/-! ### An instance -/

def memoSource : String := "x => useMemo(() => [x.a, x.c], [x.a, x.b])"

/-- The tree of `memoSource`: one entry of the array is needed, one is not, and one is missing. -/
def memoTree : Tree :=
  .node ⟨0, "program", .other, true, false, [], 0, 42⟩
    [.node ⟨1, "arrow_function", .arrowFunction, true, false, [], 0, 42⟩
      [.node ⟨2, "identifier", .identifier, true, false, [.parameter], 0, 1⟩ [],
      .node ⟨3, "call_expression", .call, true, false, [.body], 5, 42⟩
        [.node ⟨4, "identifier", .identifier, true, false, [.function], 5, 12⟩ [],
        .node ⟨5, "arguments", .arguments, true, false, [.arguments], 12, 42⟩
          [.node ⟨6, "arrow_function", .arrowFunction, true, false, [], 13, 29⟩
            [.node ⟨7, "formal_parameters", .other, true, false, [.parameters], 13, 15⟩ [],
            .node ⟨8, "array", .array, true, false, [.body], 19, 29⟩
              [.node ⟨9, "member_expression", .member, true, false, [], 20, 23⟩
                [.node ⟨10, "identifier", .identifier, true, false, [.object], 20, 21⟩ [],
                .node ⟨11, "property_identifier", .other, true, false, [.property], 22, 23⟩ []],
              .node ⟨12, "member_expression", .member, true, false, [], 25, 28⟩
                [.node ⟨13, "identifier", .identifier, true, false, [.object], 25, 26⟩ [],
                .node ⟨14, "property_identifier", .other, true, false, [.property], 27, 28⟩ []]]],
          .node ⟨15, "array", .array, true, false, [], 31, 41⟩
            [.node ⟨16, "member_expression", .member, true, false, [], 32, 35⟩
              [.node ⟨17, "identifier", .identifier, true, false, [.object], 32, 33⟩ [],
              .node ⟨18, "property_identifier", .other, true, false, [.property], 34, 35⟩ []],
            .node ⟨19, "member_expression", .member, true, false, [], 37, 40⟩
              [.node ⟨20, "identifier", .identifier, true, false, [.object], 37, 38⟩ [],
              .node ⟨21, "property_identifier", .other, true, false, [.property], 39, 40⟩ []]]]]]]

def memoSubject : Subject :=
  { source := memoSource, graph := Graph.build memoSource memoTree
    options := { severity := .high, convention := .default }
    call := Hook.firstCall memoSource memoTree (by decide +kernel) }

/-- The array of `memoSource`. -/
def memoDeps : Site := memoSubject.call.dependencies.get (by decide +kernel)

def memoEntries : List Entry := memoDeps.unwrap.namedChildren.map (Entry.ofSite memoSubject.graph memoSource)

/-- The entry `x.c`. -/
def memoAdded : Entry := { site := memoDeps, text := "x.c", kind := .path ⟨"x.c"⟩, root := some 0 }

/-- The reads of the callback, which stand in order. -/
def memoReads : List Read :=
  ((outerReferences memoSubject.graph 2).filter (·.1.access.isRead)).map (freeRead memoSource)

theorem memoReads_eq : memoSubject.extraction.reads = memoReads := by
  have hscope : memoSubject.graph.scopeAt? memoSubject.call.callback = some 2 := by decide +kernel
  have hsorted : memoReads.Pairwise fun a b => decide (a.site.start ≤ b.site.start) = true := by
    decide +kernel
  unfold Subject.extraction extract
  rw [hscope]
  exact List.mergeSort_of_pairwise hsorted

theorem memo_requirements : memoSubject.requirements.reactive = [⟨"x.a"⟩, ⟨"x.c"⟩] ∧
    memoSubject.requirements.stable = [] := by
  unfold Subject.requirements
  rw [memoReads_eq]
  decide +kernel

theorem memo_diff : (memoSubject.diff memoEntries).missing = [⟨"x.c"⟩] ∧
    (memoSubject.diff memoEntries).kept = [0] := by
  have hreq : memoSubject.requirements = ⟨[⟨"x.a"⟩, ⟨"x.c"⟩], []⟩ := by
    cases h : memoSubject.requirements
    have := memo_requirements
    simp_all
  unfold Subject.diff
  rw [hreq]
  decide +kernel

theorem diff_settled_memo :
    memoTree.Numbered ∧ Grammatical memoSource memoTree ∧
    Declared.ofSite memoSubject.graph memoSource memoDeps = .array memoDeps.unwrap memoEntries ∧
    (memoSubject.diff memoEntries).missing = [⟨"x.c"⟩] ∧
    (memoSubject.diff ([0].filterMap (memoEntries[·]?) ++ [memoAdded])).isClean = true := by
  have hnum : memoTree.Numbered := by decide
  have hg : Grammatical memoSource memoTree := by
    have hall : ∀ s ∈ (Site.root memoTree).descendants, WellSpelled memoSource s := by decide +kernel
    exact ⟨by decide, fun s hs => hall s (Site.mem_descendants hs)⟩
  have hdecl : Declared.ofSite memoSubject.graph memoSource memoDeps =
      .array memoDeps.unwrap memoEntries :=
    Declared.ofSite_of_array (by decide +kernel) (by decide +kernel)
  obtain ⟨hmissing, hkept⟩ := memo_diff
  have hread : ∃ r ∈ memoSubject.extraction.reads, r.path = ⟨"x.c"⟩ ∧ r.binding = 0 := by
    rw [memoReads_eq]
    decide +kernel
  obtain ⟨r, hr, hpath, hbinding⟩ := hread
  have hadded : List.Forall₂ memoSubject.Supplies (memoSubject.diff memoEntries).missing [memoAdded] := by
    rw [hmissing]
    exact .cons ⟨rfl, r, hr, hpath, by rw [hbinding]; rfl⟩ .nil
  have hcall : memoSubject.call ∈ Hook.calls memoSource .default memoTree :=
    Hook.firstCall_mem (by decide +kernel)
  have hsettled := diff_settled hnum hg rfl hcall
    (Option.some_get _).symm hdecl hadded
  rw [hkept] at hsettled
  exact ⟨hnum, hg, hdecl, hmissing, hsettled.1⟩

end HookLint.Dependency

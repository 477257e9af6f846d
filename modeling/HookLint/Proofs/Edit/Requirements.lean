/-
What a call requires does not depend on what it declares, but for one case.

With new entries for its dependency array a call is found again, in the same place
(`exists_becomes`).  They leave its callback's reads as they are (`reads_call`), and
leave the stability of all bindings but those that hold the result of the call itself
(`classify_call`).  Such a binding is stable with an empty array and reactive with any
other.  So the requirements of a call change with its array exactly if a memoizing
call's callback reads the call's own result, and one array is empty and the other is
not (`requirements_eq_iff`).
-/
import HookLint.Proofs.Edit.Stability
import HookLint.Proofs.HookSearch
import HookLint.Proofs.Settled

namespace HookLint.Syntax.Edit

open HookLint.Scope HookLint.Dependency

/-! ### Editing the array of a call -/

/-- The edit replaces the entries of the dependency array `deps` of a hook call. -/
structure Replaces (e : Edit) (convention : Hook.Convention) (root : Tree) (call : Hook.Call)
    (deps : Site) : Prop where
  mem_calls : call ∈ Hook.calls e.source convention root
  dependencies : call.dependencies = some deps
  isArray : deps.unwrap.kind = .array
  array : e.array = deps.unwrap.id
  numbered : root.Numbered
  numbered_tree : (e.tree root).Numbered
  grammatical : Grammatical e.source root
  oneField_tree : (e.tree root).OneField
  /-- numbers that no node keeps can be sent anywhere -/
  injective : Function.Injective e.number
  beside : ∀ s, e.Outside root s → s.isSpelled = true → s.start ≤ s.stop ∧
    (s.stop ≤ Text.byteLength e.before ∨
      Text.byteLength e.before + Text.byteLength e.old ≤ s.start)
  old_ne : e.old ≠ ""
  new_ne : e.new ≠ ""
  quiet : QuietBelow e.array root
  quiet_entries : ∀ c ∈ e.entries, ∀ t ∈ c.subtrees, isBinding t.kind = false

/-- The second call is what the first has become with the edit. -/
structure Becomes (e : Edit) (convention : Hook.Convention) (root : Tree) (call call' : Hook.Call) :
    Prop where
  mem_calls : call' ∈ Hook.calls e.edited convention (e.tree root)
  site : call'.site = e.site call.site

/-- What an argument wraps stands in a list of arguments, a wrapper or an error. -/
theorem exists_holdsArgument (s : Site) (h : ∃ p ∈ s.parent?, p.kind.holdsArgument = true) :
    ∃ p ∈ s.unwrap.parent?, p.kind.holdsArgument = true := by
  fun_induction Site.unwrap s with
  | case1 s inner hw ih =>
      refine ih ?_
      rcases Site.mem_of_wrapped? hw with hmem | ⟨-, d, -, hkd, hmem⟩
      · refine ⟨s, Site.parent?_of_mem_children hmem, ?_⟩
        have hwrapper := Visit.isTransparent_of_wrapped? hw
        revert hwrapper
        cases s.kind <;> simp [Kind.isTransparent, Kind.holdsArgument]
      · exact ⟨d, Site.parent?_of_mem_children hmem, by rw [hkd]; rfl⟩
  | case2 => exact h

variable {e : Edit} {convention : Hook.Convention} {root : Tree} {call call' : Hook.Call}
  {deps : Site}

/-- What is reached through named nodes still is. -/
theorem Outside.namedUnder_site {s : Site} (hs : e.Outside root s)
    (h : (Site.root root).NamedUnder s) : (Site.root (e.tree root)).NamedUnder (e.site s) := by
  obtain ⟨-, habove⟩ := hs
  induction h with
  | refl => exact .refl
  | @tail t c _ hc ih =>
      rw [Site.above_of_mem_children (Site.mem_children_of_mem_namedChildren hc)] at habove
      have hne : t.id ≠ e.array := habove _ List.mem_cons_self
      refine .tail (ih fun p hp => habove p (List.mem_cons_of_mem _ hp)) ?_
      rw [namedChildren_site hne]
      exact List.mem_map_of_mem hc

namespace Replaces

/-- The list of arguments of the call, with the callback's and the dependency argument. -/
theorem exists_list (h : e.Replaces convention root call deps) :
    ∃ list argument, call.Parts list argument ∧ deps ∈ list.namedChildren := by
  obtain ⟨-, list, argument, hparts⟩ := Hook.parts_of_mem_calls h.mem_calls
  exact ⟨list, argument, hparts, List.mem_of_getElem? (hparts.dependencies ▸ h.dependencies)⟩

theorem under_deps (h : e.Replaces convention root call deps) :
    Site.Under call.site deps := by
  obtain ⟨list, argument, hparts, hmem⟩ := h.exists_list
  exact .child (.of_child (Site.mem_children_of_field? hparts.arguments))
    (Site.mem_children_of_mem_namedChildren hmem)

theorem under_array (h : e.Replaces convention root call deps) :
    Site.Under (Site.root root) deps.unwrap :=
  ((Hook.parts_of_mem_calls h.mem_calls).1.trans h.under_deps).trans (Visit.under_unwrap deps)

theorem valid (h : e.Replaces convention root call deps) : e.Valid root := by
  have hsame : ∀ s, Site.Under (Site.root root) s → s.id = e.array → s = deps.unwrap :=
    fun s hs hid => Site.eq_of_id h.numbered hs h.under_array (hid.trans h.array)
  refine
    { isArray := fun s hs hid => hsame s hs hid ▸ h.isArray
      isArgument := fun s hs hid => hsame s hs hid ▸ exists_holdsArgument deps ?_
      injective := h.injective
      beside := h.beside
      old_ne := h.old_ne
      new_ne := h.new_ne
      numbered := h.numbered
      numbered_tree := h.numbered_tree
      oneField := h.grammatical.oneField
      oneField_tree := h.oneField_tree
      quiet := h.quiet
      quiet_entries := h.quiet_entries }
  obtain ⟨list, argument, hparts, hmem⟩ := h.exists_list
  exact ⟨list, Site.parent?_of_mem_children (Site.mem_children_of_mem_namedChildren hmem),
    by rw [hparts.kind]; rfl⟩

/-- The call is not below its own array. -/
theorem outside (h : e.Replaces convention root call deps) : e.Outside root call.site := by
  have hunder := (Hook.parts_of_mem_calls h.mem_calls).1
  refine ⟨hunder, fun p hp hid => ?_⟩
  rcases (Site.mem_above_iff hunder p).mp hp with hnil | ⟨t, ht, rfl, c, hc, hcall⟩
  · simp [Site.root] at hnil
  · have ht' : t = deps.unwrap := Site.eq_of_id h.numbered ht h.under_array (hid.trans h.array)
    have hunder' := hcall.trans (h.under_deps.trans (Visit.under_unwrap deps))
    exact hunder'.ne_of_child hc ht'.symm

theorem owns (h : e.Replaces convention root call deps) : e.Owns root call.site := by
  intro s hs hk list hlist c hc hid
  obtain ⟨list', argument, hparts, hmem⟩ := h.exists_list
  have hlist' := Site.mem_children_of_field? hlist
  have hc' := Site.mem_children_of_mem_namedChildren (List.mem_of_getElem? hc)
  have hunder : Site.Under (Site.root root) c.unwrap :=
    (Site.Under.child (.child hs.under hlist') hc').trans (Visit.under_unwrap c)
  exact Hook.eq_of_unwrap_eq h.numbered hs.under hk hlist' hc'
    (Hook.parts_of_mem_calls h.mem_calls).1 (Site.mem_children_of_field? hparts.arguments)
    hparts.kind (Site.mem_children_of_mem_namedChildren hmem)
    (Site.eq_of_id h.numbered hunder h.under_array (hid.trans h.array))

/-- Neither the call nor its list of arguments is the array. -/
theorem list_ne (h : e.Replaces convention root call deps) {list : Site}
    (hlist : call.site.field? .arguments = some list) :
    call.site.id ≠ e.array ∧ list.id ≠ e.array := by
  obtain ⟨-, hk, -⟩ := Hook.site_of_mem_calls h.mem_calls
  have hf := h.valid.toFits
  exact ⟨h.outside.ne hf (by simp [hk]), h.outside.child_ne hf (by simp [hk, Kind.holdsArgument])
    (Site.mem_children_of_field? hlist)⟩

/-- The call is found again. -/
theorem exists_becomes (h : e.Replaces convention root call deps) :
    ∃ call', e.Becomes convention root call call' := by
  have hv := h.valid
  have hf := hv.toFits
  obtain ⟨site, hunder, hk, hof⟩ := (Hook.mem_calls_iff ..).mp h.mem_calls
  obtain ⟨rfl, -⟩ := Hook.Call.parts_of_ofSite? hof
  obtain ⟨name, list, argument, hname, hhook, hlist, hkind, hitem, hinline⟩ :=
    Hook.Call.exists_ofSite?_iff.mp ⟨call, hof⟩
  obtain ⟨hne, hlistne⟩ := h.list_ne hlist
  have ho : e.Outside root argument :=
    (h.outside.field hne hlist).namedChild hlistne (List.mem_of_getElem? hitem)
  obtain ⟨call', hof'⟩ : ∃ call', Hook.Call.ofSite? e.edited convention (e.site call.site) =
      some call' := by
    refine Hook.Call.exists_ofSite?_iff.mpr
      ⟨name, e.site list, e.site argument, ?_, hhook, ?_, by rw [kind_site, hkind], ?_, ?_⟩
    · rw [callee_site hv h.outside hk, hname]
    · rw [field?_site hne, hlist, Option.map_some]
    · rw [namedChildren_site hlistne, List.getElem?_map, hitem, Option.map_some]
    · rw [unwrap_site hf ho, kind_site, hinline]
  obtain ⟨hsite, -⟩ := Hook.Call.parts_of_ofSite? hof'
  exact ⟨call', (Hook.mem_calls_iff ..).mpr
    ⟨_, h.outside.namedUnder_site hunder, by rw [kind_site, hk], hof'⟩, hsite⟩

/-- The call has the parts it had, at their new places. -/
theorem parts_tree (h : e.Replaces convention root call deps)
    (h' : e.Becomes convention root call call') :
    call'.callback = e.site call.callback ∧ call'.dependencies = some (e.site deps) := by
  have hv := h.valid
  obtain ⟨-, hk, hof⟩ := Hook.site_of_mem_calls h.mem_calls
  obtain ⟨-, -, hof'⟩ := Hook.site_of_mem_calls h'.mem_calls
  obtain ⟨-, list, argument, hparts⟩ := Hook.parts_of_mem_calls h.mem_calls
  obtain ⟨-, list', argument', hparts'⟩ := Hook.parts_of_mem_calls h'.mem_calls
  obtain ⟨hname, hindex⟩ := Hook.Call.name_of_ofSite? hof
  obtain ⟨hname', hindex'⟩ := Hook.Call.name_of_ofSite? hof'
  obtain ⟨hne, hlistne⟩ := h.list_ne hparts.arguments
  have hlist : list' = e.site list := by
    have harguments := hparts'.arguments
    rw [h'.site, field?_site hne, hparts.arguments] at harguments
    exact (Option.some.inj harguments).symm
  have hsame : call'.callbackIndex = call.callbackIndex := by
    rw [h'.site, callee_site hv h.outside hk, hname, Option.some.injEq] at hname'
    rw [hindex, hindex', hname']
  have hargument : argument' = e.site argument := by
    have hitem := hparts'.item
    rw [hlist, hsame, namedChildren_site hlistne, List.getElem?_map, hparts.item] at hitem
    exact (Option.some.inj hitem).symm
  have ho : e.Outside root argument :=
    (h.outside.field hne hparts.arguments).namedChild hlistne (List.mem_of_getElem? hparts.item)
  constructor
  · rw [hparts'.callback, hparts.callback, hargument, unwrap_site hv.toFits ho]
  · rw [hparts'.dependencies, hlist, hsame, namedChildren_site hlistne, List.getElem?_map,
      ← hparts.dependencies, h.dependencies, Option.map_some]

theorem outside_deps (h : e.Replaces convention root call deps) : e.Outside root deps := by
  obtain ⟨list, argument, hparts, hmem⟩ := h.exists_list
  obtain ⟨hne, hlistne⟩ := h.list_ne hparts.arguments
  exact (h.outside.field hne hparts.arguments).namedChild hlistne hmem

end Replaces

end HookLint.Syntax.Edit

namespace HookLint.Dependency

open HookLint.Syntax HookLint.Scope

/-! ### Requirements -/

/-- A call of a source unit, to be checked. -/
def Subject.ofUnit (source : String) (root : Tree) (options : Options) (call : Hook.Call) :
    Subject :=
  { source, graph := Graph.build source root, options, call }

theorem Requirements.ofReads_congr {reads : List Read} {classify classify' : BindingId → Stability}
    (h : ∀ r ∈ reads, classify' r.binding = classify r.binding) :
    ofReads reads classify' = ofReads reads classify := by
  unfold ofReads
  rw [List.filter_congr fun r hr => congrArg (· == Stability.reactive) (h r hr),
    List.filter_congr fun r hr => congrArg Stability.isStable (h r hr)]

/-- Where a read stands does not matter to what is required. -/
theorem Requirements.ofReads_map (e : Edit) (reads : List Read)
    (classify : BindingId → Stability) :
    ofReads (reads.map e.read) classify = ofReads reads classify := by
  unfold ofReads
  rw [List.filter_map, List.filter_map, List.map_map, List.map_map]
  rfl

end HookLint.Dependency

namespace HookLint.Syntax.Edit

open HookLint.Scope HookLint.Dependency

section Requirements

variable {e : Edit} {root : Tree} {call call' : Hook.Call} {deps : Site} {options : Options}
  (h : e.Replaces options.convention root call deps)

include h

theorem mirrors_call :
    e.Mirrors (Graph.build e.source root) (Graph.build e.edited (e.tree root)) :=
  mirrors_build h.valid.toFits h.quiet h.quiet_entries

section Becomes

variable (h' : e.Becomes options.convention root call call')

include h'

theorem renderScope_call :
    (Subject.ofUnit e.edited (e.tree root) options call').renderScope =
      (Subject.ofUnit e.source root options call).renderScope := by
  have hmirrors := mirrors_call h
  show (Graph.build e.edited (e.tree root)).enclosingFunction?
    ((Graph.build e.edited (e.tree root)).enclosingScope call'.site) = _
  rw [h'.site, hmirrors.enclosingScope h.injective, hmirrors.enclosingFunction?]
  rfl

/-- The callback reads what it read. -/
theorem reads_call :
    (Subject.ofUnit e.edited (e.tree root) options call').extraction.reads =
      (Subject.ofUnit e.source root options call).extraction.reads.map e.read := by
  have hmirrors := mirrors_call h
  have hf := h.valid.toFits
  obtain ⟨hcallback, hdeps⟩ := h.parts_tree h'
  show (extract (Graph.build e.edited (e.tree root)) e.edited call'.callback).reads = _
  rw [hcallback]
  refine reads_tree hf hmirrors (references_tree hf h.quiet h.quiet_entries) fun scope hscope => ?_
  have hscope' : (Graph.build e.edited (e.tree root)).scopeAt? call'.callback = some scope := by
    rw [hcallback, hmirrors.scopeAt? h.injective, hscope]
  have hclear := clear_callback h.numbered h.grammatical.oneField h.mem_calls h.dependencies
    (Visit.under_unwrap deps) hscope
  have hclear' := clear_callback h.numbered_tree h.oneField_tree h'.mem_calls hdeps
    (Visit.under_unwrap (e.site deps)) hscope'
  rw [unwrap_site hf h.outside_deps, id_site, ← h.array] at hclear'
  exact ⟨h.array ▸ hclear, hclear'⟩

/-- A binding is classified as before, unless it holds the result of the call. -/
theorem classify_call {b : BindingId}
    (hb : ¬ (Subject.ofUnit e.source root options call).classifier.Rests call.site b) :
    (Subject.ofUnit e.edited (e.tree root) options call').classifier.classify b =
      (Subject.ofUnit e.source root options call).classifier.classify b := by
  obtain ⟨-, hk, -⟩ := Hook.site_of_mem_calls h.mem_calls
  have htree := classifyWithin_tree h.valid options.convention
    (Subject.ofUnit e.source root options call).renderScope h.outside hk h.owns aliasLimit b hb
  rw [← renderScope_call h h'] at htree
  exact htree.trans (by rw [renderScope_call h h']; rfl)

/-- A binding that holds the result of the call is as stable as the array is empty, before and
after. -/
theorem classify_of_rests {b : BindingId}
    (hb : (Subject.ofUnit e.source root options call).classifier.Rests call.site b) :
    (Subject.ofUnit e.source root options call).classifier.classify b =
        (if hasEmptyDependencies call.site then .stable .memoized else .reactive) ∧
      (Subject.ofUnit e.edited (e.tree root) options call').classifier.classify b =
        if hasEmptyDependencies call'.site then .stable .memoized else .reactive := by
  obtain ⟨-, hk, -⟩ := Hook.site_of_mem_calls h.mem_calls
  have hb' := rests_tree h.valid options.convention
    (Subject.ofUnit e.source root options call).renderScope h.outside hk hb
  rw [← renderScope_call h h', ← h'.site] at hb'
  exact ⟨hb.classifyWithin hk _, hb'.classifyWithin (by rw [h'.site, kind_site, hk]) _⟩

theorem requirements_becomes_iff :
    (Subject.ofUnit e.edited (e.tree root) options call').requirements =
        (Subject.ofUnit e.source root options call).requirements ↔
      ((∃ r ∈ (Subject.ofUnit e.source root options call).extraction.reads,
          (Subject.ofUnit e.source root options call).classifier.Rests call.site r.binding) →
        hasEmptyDependencies call'.site = hasEmptyDependencies call.site) := by
  set before := Subject.ofUnit e.source root options call
  set after := Subject.ofUnit e.edited (e.tree root) options call'
  have hrequirements : after.requirements =
      Requirements.ofReads before.extraction.reads after.classifier.classify := by
    rw [Subject.requirements, reads_call h h', Requirements.ofReads_map]
  rw [hrequirements]
  constructor
  · rintro heq ⟨r, hr, hrests⟩
    obtain ⟨hclass, hclass'⟩ := classify_of_rests h h' hrests
    have hreactive : r.path ∈ (Requirements.ofReads before.extraction.reads
        after.classifier.classify).reactive ↔ r.path ∈ before.requirements.reactive := by rw [heq]
    -- Whatever is read along the path is read of the binding.
    have hsame : ∀ classify : BindingId → Stability, r.path ∈
        (Requirements.ofReads before.extraction.reads classify).reactive ↔
          classify r.binding = .reactive := by
      intro classify
      rw [mem_reactive]
      constructor
      · rintro ⟨r', hr', hpath, hc⟩
        rwa [← binding_of_path h.numbered h.grammatical h.mem_calls hr' hr hpath]
      · exact fun hc => ⟨r, hr, rfl, hc⟩
    rw [hsame, Subject.requirements, hsame, hclass, hclass'] at hreactive
    revert hreactive
    cases hasEmptyDependencies call.site <;> cases hasEmptyDependencies call'.site <;> simp
  · intro hempty
    refine Requirements.ofReads_congr fun r hr => ?_
    by_cases hrests : before.classifier.Rests call.site r.binding
    · obtain ⟨hclass, hclass'⟩ := classify_of_rests h h' hrests
      rw [hclass, hclass', hempty ⟨r, hr, hrests⟩]
    · exact classify_call h h' hrests

end Becomes

/-- New entries for the array of a call leave its requirements as they are, unless the callback
reads the call's own memoized result and only one of the arrays is empty.  The call is found again
in the new tree, and this holds of whatever call is found in its place. -/
theorem requirements_eq_iff :
    (∃ call', e.Becomes options.convention root call call') ∧
    ∀ call', e.Becomes options.convention root call call' →
      ((Subject.ofUnit e.edited (e.tree root) options call').requirements =
          (Subject.ofUnit e.source root options call).requirements ↔
        ((∃ r ∈ (Subject.ofUnit e.source root options call).extraction.reads,
            (Subject.ofUnit e.source root options call).classifier.Rests call.site r.binding) →
          hasEmptyDependencies call'.site = hasEmptyDependencies call.site)) :=
  ⟨h.exists_becomes, fun _ h' => requirements_becomes_iff h h'⟩

end Requirements

/-! ### An instance -/

/-- A callback that calls the function it is memoized as, with an empty array.  The new array lists
the parameter that it reads. -/
def recursiveEdit : Edit where
  array := 17
  entries := [.node ⟨18, "identifier", .identifier, true, false, [], 42, 43⟩ []]
  number := id
  before := "x => \x7b const f = useCallback(() => f(x), "
  old := "[]"
  new := "[x]"
  after := ") \x7d"

/-- The tree of the source of `recursiveEdit`. -/
def recursiveTree : Tree :=
  .node ⟨0, "program", .other, true, false, [], 0, 46⟩
    [.node ⟨1, "arrow_function", .arrowFunction, true, false, [], 0, 46⟩
      [.node ⟨2, "identifier", .identifier, true, false, [.parameter], 0, 1⟩ [],
      .node ⟨3, "statement_block", .statementBlock, true, false, [.body], 5, 46⟩
        [.node ⟨4, "lexical_declaration", .lexicalDeclaration, true, false, [], 7, 44⟩
          [.node ⟨5, "const", .other, false, false, [.kind], 7, 12⟩ [],
          .node ⟨6, "variable_declarator", .declarator, true, false, [], 13, 44⟩
            [.node ⟨7, "identifier", .identifier, true, false, [.name], 13, 14⟩ [],
            .node ⟨8, "call_expression", .call, true, false, [.value], 17, 44⟩
              [.node ⟨9, "identifier", .identifier, true, false, [.function], 17, 28⟩ [],
              .node ⟨10, "arguments", .arguments, true, false, [.arguments], 28, 44⟩
                [.node ⟨11, "arrow_function", .arrowFunction, true, false, [], 29, 39⟩
                  [.node ⟨12, "formal_parameters", .other, true, false, [.parameters], 29, 31⟩ [],
                  .node ⟨13, "call_expression", .call, true, false, [.body], 35, 39⟩
                    [.node ⟨14, "identifier", .identifier, true, false, [.function], 35, 36⟩ [],
                    .node ⟨15, "arguments", .arguments, true, false, [.arguments], 36, 39⟩
                      [.node ⟨16, "identifier", .identifier, true, false, [], 37, 38⟩ []]]],
                .node ⟨17, "array", .array, true, false, [], 41, 43⟩ []]]]]]]]

def recursiveOptions : Options := { severity := .high, convention := .default }

def recursiveCall : Hook.Call :=
  Hook.firstCall recursiveEdit.source recursiveTree (by decide +kernel)

/-- The call with the new array. -/
def recursiveCall' : Hook.Call :=
  Hook.firstCall recursiveEdit.edited (recursiveEdit.tree recursiveTree) (by decide +kernel)

/-- The array of `recursiveTree`. -/
def recursiveDeps : Site := recursiveCall.dependencies.get (by decide +kernel)

theorem recursive_replaces : recursiveEdit.Replaces recursiveOptions.convention recursiveTree
    recursiveCall recursiveDeps := by
  have hall : ∀ s ∈ (Site.root recursiveTree).descendants,
      WellSpelled recursiveEdit.source s ∧ (s.isSpelled = true → s.start ≤ s.stop ∧
        (s.stop ≤ Text.byteLength recursiveEdit.before ∨
          Text.byteLength recursiveEdit.before + Text.byteLength recursiveEdit.old ≤ s.start)) ∧
      (s.id = recursiveEdit.array → ∀ c ∈ s.tree.children, ∀ t ∈ c.subtrees,
        isBinding t.kind = false) := by decide +kernel
  exact
    { mem_calls := Hook.firstCall_mem _
      dependencies := (Option.some_get _).symm
      isArray := by decide +kernel
      array := by decide +kernel
      numbered := by decide +kernel
      numbered_tree := by decide +kernel
      grammatical := ⟨by decide +kernel, fun s hs => (hall s (Site.mem_descendants hs)).1⟩
      oneField_tree := by decide +kernel
      injective := Function.injective_id
      beside := fun s hs => (hall s (Site.mem_descendants hs.under)).2.1
      old_ne := by decide
      new_ne := by decide
      quiet := fun s hs => (hall s (Site.mem_descendants hs)).2.2
      quiet_entries := by decide +kernel }

theorem recursive_becomes : recursiveEdit.Becomes recursiveOptions.convention recursiveTree
    recursiveCall recursiveCall' where
  mem_calls := Hook.firstCall_mem _
  site := Site.eq_of_id recursive_replaces.numbered_tree
    (Hook.parts_of_mem_calls (Hook.firstCall_mem _)).1 recursive_replaces.outside.under_site
    (by decide +kernel)

/-- The unit's variable holds the result of the call. -/
theorem recursive_rests : (Subject.ofUnit recursiveEdit.source recursiveTree recursiveOptions
    recursiveCall).classifier.Rests recursiveCall.site 1 := by
  obtain ⟨binding, hbinding⟩ := Option.isSome_iff_exists.mp (by decide +kernel :
    (Graph.build recursiveEdit.source recursiveTree).bindings[1]?.isSome = true)
  have hfacts : (Graph.build recursiveEdit.source recursiveTree).bindings[1]?.all (fun b =>
      b.kind == .variable .constVar && b.pattern.isEmpty &&
        b.init.any (·.unwrap.id == recursiveCall.site.id)) = true := by decide +kernel
  simp only [hbinding, Option.all_some, Bool.and_eq_true, beq_iff_eq, List.isEmpty_iff] at hfacts
  obtain ⟨⟨hkind, hpattern⟩, hinit⟩ := hfacts
  refine ⟨by decide +kernel, ⟨binding, hbinding, hpattern, ?_⟩, ?_⟩
  · cases hi : binding.init with
    | none => simp [hi] at hinit
    | some init =>
        have hid : init.unwrap.id = recursiveCall.site.id := by simpa [hi] using hinit
        have hsite : init.unwrap = recursiveCall.site := Site.eq_of_id recursive_replaces.numbered
          ((Graph.under_initializer hbinding hi).trans (Visit.under_unwrap init))
          (Hook.parts_of_mem_calls recursive_replaces.mem_calls).1 hid
        rw [Binding.value?, hkind, hi, ← hsite]
        rfl
  · exact ⟨"useCallback", by decide +kernel, Or.inr rfl, by decide +kernel⟩

/-- With the new array the function is required too. -/
theorem requirements_eq_iff_recursive :
    recursiveEdit.Replaces recursiveOptions.convention recursiveTree recursiveCall recursiveDeps ∧
    recursiveEdit.Becomes recursiveOptions.convention recursiveTree recursiveCall recursiveCall' ∧
    (Subject.ofUnit recursiveEdit.edited (recursiveEdit.tree recursiveTree) recursiveOptions
        recursiveCall').requirements ≠
      (Subject.ofUnit recursiveEdit.source recursiveTree recursiveOptions
        recursiveCall).requirements := by
  obtain ⟨-, hiff⟩ := requirements_eq_iff recursive_replaces
  refine ⟨recursive_replaces, recursive_becomes, fun heq => ?_⟩
  have hempty := (hiff _ recursive_becomes).mp heq
  have hscope : (Graph.build recursiveEdit.source recursiveTree).scopeAt? recursiveCall.callback =
      some 2 := by decide +kernel
  have hread : ∃ p ∈ outerReferences (Graph.build recursiveEdit.source recursiveTree) 2,
      p.1.access.isRead = true ∧ p.2 = 1 := by decide +kernel
  -- The callback reads the function.
  obtain ⟨p, hp, hread, hbinding⟩ := hread
  have hrests : (Subject.ofUnit recursiveEdit.source recursiveTree recursiveOptions
      recursiveCall).classifier.Rests recursiveCall.site (freeRead recursiveEdit.source p).binding := by
    rw [freeRead, hbinding]
    exact recursive_rests
  exact absurd (hempty ⟨_, freeRead_mem_reads hscope hp hread, hrests⟩) (by decide +kernel)

end HookLint.Syntax.Edit

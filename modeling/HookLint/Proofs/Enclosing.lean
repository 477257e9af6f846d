/-
The scope a reference occurs in, and the scope found for its node.

The scope of a reference is the innermost region open when it is met.  Going up the
tree afterwards, the first node that opened a scope gives `enclosingScope`.  The two
agree because a site that opens a region has all it contributes inside of it, with one
exception: the computed name of a method is read before the method's region is opened.
There the climb ends at the method, one scope further in (`scope_eq_enclosingScope_iff`).

The climb uses a table from nodes to scopes, and another one gives the reference at a
node.  A node stands in each of them once at most (`recorded_once`).
-/
import HookLint.Proofs.Declarations

namespace HookLint.Scope.Graph

open HookLint.Syntax

variable {g : Graph}

/-! ### The nearest node that opened a scope -/

/-- `m` is the nearest site at or above `x` that opened a scope. -/
structure Opener (g : Graph) (m x : Site) : Prop where
  under : Site.Under m x
  opens : (g.scopeAt? m).isSome = true
  nearest : ∀ t, Site.Under m t → Site.Under t x → (g.scopeAt? t).isSome = true → t = m

theorem enclosingScope_of_scopeAt? {x : Site} {i : ScopeId} (h : g.scopeAt? x = some i) :
    g.enclosingScope x = i := by
  have hlookup : g.scopeNodes.lookup x.tree.id = some i := h
  unfold enclosingScope
  cases x.above with
  | nil => rw [enclosingFrom, hlookup, Option.getD_some]
  | cons p above => rw [enclosingFrom, hlookup]

theorem enclosingScope_of_child {s c : Site} (hc : c ∈ s.children) (h : g.scopeAt? c = none) :
    g.enclosingScope c = g.enclosingScope s := by
  have hlookup : g.scopeNodes.lookup c.tree.id = none := h
  unfold enclosingScope
  rw [Site.above_of_mem_children hc, enclosingFrom, hlookup]

/-- The climb ends at the nearest site that opened a scope. -/
theorem Opener.scopeAt? {m x : Site} (h : g.Opener m x) :
    g.scopeAt? m = some (g.enclosingScope x) := by
  obtain ⟨hunder, hopens, hnearest⟩ := h
  obtain ⟨i, hi⟩ := Option.isSome_iff_exists.mp hopens
  induction hunder with
  | self => rw [hi, enclosingScope_of_scopeAt? hi]
  | @child s c hms hc ih =>
      cases hscope : g.scopeAt? c with
      | some j =>
          have hcm : c = m := hnearest c (.child hms hc) (.self c) (by rw [hscope]; rfl)
          rw [← hcm, hscope, enclosingScope_of_scopeAt? hscope]
      | none =>
          rw [enclosingScope_of_child hc hscope]
          exact ih fun t hmt hts => hnearest t hmt (.child hts hc)

theorem exists_opener {a x : Site} (h : Site.Under a x) (ha : (g.scopeAt? a).isSome = true) :
    ∃ m, g.Opener m x := by
  induction h with
  | self => exact ⟨a, .self a, ha, fun t hat hta _ => hat.antisymm hta⟩
  | @child s c _ hc ih =>
      by_cases hscope : (g.scopeAt? c).isSome = true
      · exact ⟨c, .self c, hscope, fun t hct htc _ => hct.antisymm htc⟩
      · obtain ⟨m, hms, hopens, hnearest⟩ := ih
        refine ⟨m, .child hms hc, hopens, fun t hmt htc ht => ?_⟩
        cases htc with
        | self => exact absurd ht hscope
        | child hts hc' => exact hnearest t hmt (Site.eq_of_mem_children hc' hc ▸ hts) ht

/-! ### The regions around a reference -/

variable {source : String} {root : Tree}

/-- An open region is that of a site that opened a scope. -/
theorem isSome_scopeAt?_of_mem_regions (hnum : root.Numbered) (hone : root.OneField) {b : Builder}
    {e : Event} (h : (b, e) ∈ unitStages source root) {s : Site} (hs : s ∈ b.regions) :
    ((build source root).scopeAt? s).isSome = true := by
  obtain ⟨i, hi, hsite⟩ := List.mem_filterMap.mp hs
  have hlt := (open_of_mem_unitStages h).lt_size i hi
  rw [← (extends_build h).siteOf? hlt] at hsite
  rw [scopeAt?_of_siteOf? hnum hone hsite]
  rfl

/-- The innermost open region is that of the innermost open scope. -/
theorem scopeAt?_of_regions (hnum : root.Numbered) (hone : root.OneField) {b : Builder} {e : Event}
    (h : (b, e) ∈ unitStages source root) {s : Site} {rest : List Site}
    (hs : b.regions = s :: rest) : (build source root).scopeAt? s = some b.current := by
  have hopen := open_of_mem_unitStages h
  unfold Builder.regions at hs
  cases hstack : b.stack with
  | nil =>
      rw [hstack] at hs
      contradiction
  | cons top below =>
      have hlt := hopen.lt_size top (hstack ▸ List.mem_cons_self)
      obtain ⟨t, ht⟩ := Option.isSome_iff_exists.mp (siteOf?_isSome.mpr hlt)
      rw [hstack, List.filterMap_cons_some ht] at hs
      injection hs with hts
      rw [← (extends_build h).siteOf? hlt, hts] at ht
      rw [scopeAt?_of_siteOf? hnum hone ht, Builder.current, hstack]
      rfl

theorem parent?_of_ancestors {i p : ScopeId} (h : g.ancestors i = i :: g.ancestors p) :
    g.parent? i = some p := by
  have hhead : ∀ j, (g.ancestors j).head? = some j := by
    intro j
    cases hj : g.parent? j with
    | none => rw [ancestors_of_no_parent hj]; rfl
    | some q => rw [ancestors_of_parent hj]; rfl
  cases hi : g.parent? i with
  | none =>
      rw [ancestors_of_no_parent hi] at h
      injection h with _ h
      have := hhead p
      rw [← h] at this
      contradiction
  | some q =>
      rw [ancestors_of_parent hi] at h
      injection h with _ h
      have := hhead q
      rw [h, hhead p] at this
      exact this.symm

/-- Nothing is open between a reference and the nearest site that opened a scope. -/
theorem Opener.front_eq_nil (hnum : root.Numbered) (hone : root.OneField) {m x : Site}
    (hm : (build source root).Opener m x) {b : Builder} {e : Event}
    (h : (b, e) ∈ unitStages source root) {front back : List Site}
    (hregions : b.regions = front ++ back)
    (hfront : ∀ r ∈ front, ∃ d ∈ m.children, Site.Under d r ∧ Site.Under r x) : front = [] := by
  refine List.eq_nil_iff_forall_not_mem.mpr fun r hr => ?_
  obtain ⟨d, hd, hdr, hrx⟩ := hfront r hr
  have hopens := isSome_scopeAt?_of_mem_regions hnum hone h
    (hregions ▸ List.mem_append_left back hr : r ∈ b.regions)
  exact hdr.ne_of_child hd (hm.nearest r ((Site.Under.of_child hd).trans hdr) hrx hopens)

/-- A reference is met directly inside the region of the nearest site that opened a scope, or
directly outside when it stands in the computed name of a method. -/
theorem Opener.scope_cases (hnum : root.Numbered) (hone : root.OneField) {r : Reference}
    (hr : r ∈ (build source root).references.toList) {m : Site}
    (hm : (build source root).Opener m r.site) :
    r.scope = (build source root).enclosingScope r.site ∧
        (m = Site.root root ∨ ¬ InComputedName m r.site) ∨
      (build source root).parent? ((build source root).enclosingScope r.site) = some r.scope ∧
        m ≠ Site.root root ∧ InComputedName m r.site := by
  obtain ⟨b, hstage, hcurrent, -⟩ := exists_stage_of_mem_references hr
  obtain ⟨w, hw, hx⟩ := Visit.arrives_of_refer (mem_traced_of_mem_stages hstage)
  have hscope := hm.scopeAt?
  -- A reference met directly inside the region of `m` has the scope of `m`.
  have hinside : ∀ {rest : List Site}, b.regions = m :: rest →
      r.scope = (build source root).enclosingScope r.site := by
    intro rest hregions
    rw [scopeAt?_of_regions hnum hone hstage hregions] at hscope
    exact hcurrent.trans (Option.some.inj hscope)
  by_cases hroot : m = Site.root root
  · obtain ⟨c, hc, hcw⟩ := hw
    obtain ⟨front, hregions, hfront⟩ := hcw.stage_append hx
    have hnil : front = [] := hm.front_eq_nil hnum hone hstage hregions fun t ht =>
      ⟨c, hroot ▸ Site.mem_children_of_mem_namedChildren hc, (hfront t ht).1,
        (hfront t ht).2.trans (Visit.refer_under hx).1⟩
    rw [hnil, ← hroot] at hregions
    exact Or.inl ⟨hinside hregions, Or.inl hroot⟩
  · have hunder := hm.under.of_root (site_of_mem_references hr).1
    have hsite := siteOf?_scopeAt? hnum hunder hscope
    obtain ⟨b', kind, hstage'⟩ := exists_stage_of_siteOf? hsite
    obtain ⟨v, hv, rfl, hvinside, hopens⟩ :=
      Visit.arrives_of_enter hroot (mem_traced_of_mem_stages hstage')
    obtain ⟨front, hfront, ⟨hregions, hname⟩ | ⟨hregions, hname⟩⟩ :=
      Visit.inside_of_under hnum hone hv hopens hw hx hm.under
    · rw [hm.front_eq_nil hnum hone hstage hregions hfront] at hregions
      exact Or.inl ⟨hinside hregions, Or.inr hname⟩
    · rw [hm.front_eq_nil hnum hone hstage hregions hfront] at hregions
      have hstack : b.stack = b'.stack :=
        stack_eq_of_regions hnum hone hstage hstage' (hregions.trans hvinside)
      refine Or.inr ⟨parent?_of_ancestors ?_, hroot, hname⟩
      rw [ancestors_of_enter hnum hone hstage' hsite, hcurrent, ancestors_current hstage rfl,
        hstack]

/-! ### The two scopes of a reference -/

/-- The nearest site that opened a scope, at or above `x`, is a method of the unit, and `x`
stands in its computed name. -/
structure NamesMethod (g : Graph) (root : Tree) (m x : Site) : Prop where
  opener : g.Opener m x
  inner : m ≠ Site.root root
  named : InComputedName m x

theorem NamesMethod.parent? (hnum : root.Numbered) (hone : root.OneField) {r : Reference}
    (hr : r ∈ (build source root).references.toList) {m : Site}
    (h : (build source root).NamesMethod root m r.site) :
    (build source root).parent? ((build source root).enclosingScope r.site) = some r.scope := by
  rcases h.opener.scope_cases hnum hone hr with ⟨-, hroot | hname⟩ | ⟨hparent, -, -⟩
  · exact absurd hroot h.inner
  · exact absurd h.named hname
  · exact hparent

theorem isSome_scopeAt?_root (hnum : root.Numbered) (hone : root.OneField) (source : String) :
    ((build source root).scopeAt? (Site.root root)).isSome = true := by
  have hsite : (build source root).siteOf? moduleScope = some (Site.root root) := by
    rw [siteOf?, outline?_module]
    rfl
  rw [scopeAt?_of_siteOf? hnum hone hsite]
  rfl

/-- A reference occurs in the scope that encloses its node, unless it stands in the computed
name of a method.  Then the method's scope encloses its node, and it occurs in the scope around
that one. -/
theorem scope_eq_enclosingScope_iff {source : String} {root : Tree} (hnum : root.Numbered)
    (hone : root.OneField) {r : Reference} (hr : r ∈ (build source root).references.toList) :
    (r.scope = (build source root).enclosingScope r.site ↔
      ∀ m, ¬ (build source root).NamesMethod root m r.site) ∧
    ∀ m, (build source root).NamesMethod root m r.site →
      (build source root).scopeAt? m = some ((build source root).enclosingScope r.site) ∧
      (build source root).parent? ((build source root).enclosingScope r.site) = some r.scope := by
  refine ⟨⟨fun heq m hm => ?_, fun hnone => ?_⟩,
    fun m hm => ⟨hm.opener.scopeAt?, hm.parent? hnum hone hr⟩⟩
  · -- A parent is another scope.
    have hlt := lt_of_parent? (hm.parent? hnum hone hr)
    rw [heq] at hlt
    exact Nat.lt_irrefl _ hlt
  · obtain ⟨m, hm⟩ := exists_opener (site_of_mem_references hr).1
      (isSome_scopeAt?_root hnum hone source)
    rcases hm.scope_cases hnum hone hr with ⟨heq, -⟩ | ⟨-, hinner, hnamed⟩
    · exact heq
    · exact absurd ⟨hm, hinner, hnamed⟩ (hnone m)

/-- The tree of `class A { [k]() { k; } }`. -/
def keyedMethod : Tree :=
  .node ⟨0, "program", .other, true, false, [], 0, 24⟩
    [.node ⟨1, "class_declaration", .classDeclaration, true, false, [], 0, 24⟩
      [.node ⟨2, "identifier", .identifier, true, false, [.name], 6, 7⟩ [],
       .node ⟨3, "class_body", .other, true, false, [.body], 8, 24⟩
        [.node ⟨4, "method_definition", .method, true, false, [], 10, 22⟩
          [.node ⟨5, "computed_property_name", .computedName, true, false, [.name], 10, 13⟩
            [.node ⟨6, "identifier", .identifier, true, false, [], 11, 12⟩ []],
           .node ⟨7, "formal_parameters", .other, true, false, [.parameters], 13, 15⟩ [],
           .node ⟨8, "statement_block", .statementBlock, true, false, [.body], 16, 22⟩
            [.node ⟨9, "expression_statement", .other, true, false, [], 18, 20⟩
              [.node ⟨10, "identifier", .identifier, true, false, [], 18, 19⟩ []]]]]]]

def keyedSource : String := "class A \x7b [k]() \x7b k; \x7d \x7d"

/-- The name in the brackets occurs in the unit's scope and is enclosed by that of the method;
the one in the body occurs in the method's scope. -/
theorem scope_eq_enclosingScope_iff_keyed :
    keyedMethod.Numbered ∧ keyedMethod.OneField ∧
    (∃ r ∈ (build keyedSource keyedMethod).references.toList, r.site.id = 6 ∧
      ∃ m, (build keyedSource keyedMethod).NamesMethod keyedMethod m r.site ∧
        (build keyedSource keyedMethod).scopeAt? m = some 1 ∧
        (build keyedSource keyedMethod).parent? 1 = some r.scope) ∧
    ∃ r ∈ (build keyedSource keyedMethod).references.toList, r.site.id = 10 ∧
      ∀ m, ¬ (build keyedSource keyedMethod).NamesMethod keyedMethod m r.site := by
  have hnum : keyedMethod.Numbered := by decide
  have hone : keyedMethod.OneField := by decide
  have hkey : ∃ r ∈ (build keyedSource keyedMethod).references.toList, r.site.id = 6 ∧
      r.scope ≠ (build keyedSource keyedMethod).enclosingScope r.site ∧
      (build keyedSource keyedMethod).enclosingScope r.site = 1 := by decide +kernel
  have hbody : ∃ r ∈ (build keyedSource keyedMethod).references.toList, r.site.id = 10 ∧
      r.scope = (build keyedSource keyedMethod).enclosingScope r.site := by decide +kernel
  refine ⟨hnum, hone, ?_, ?_⟩
  · obtain ⟨r, hr, hid, hne, hone'⟩ := hkey
    obtain ⟨hiff, hnames⟩ := scope_eq_enclosingScope_iff hnum hone hr
    obtain ⟨m, hm⟩ := not_forall_not.mp (mt hiff.mpr hne)
    obtain ⟨hscope, hparent⟩ := hnames m hm
    rw [hone'] at hscope hparent
    exact ⟨r, hr, hid, m, hm, hscope, hparent⟩
  · obtain ⟨r, hr, hid, heq⟩ := hbody
    exact ⟨r, hr, hid, (scope_eq_enclosingScope_iff hnum hone hr).1.mp heq⟩

/-! ### One entry for a node -/

/-- A node is referred to once and opens one scope at most, and what is found for the node of a
reference or of a scope is that reference or scope. -/
theorem recorded_once {root : Tree} (hnum : root.Numbered) (hone : root.OneField)
    (source : String) :
    (∀ (i : ReferenceId) (r : Reference), (build source root).references[i]? = some r →
      (∀ (j : ReferenceId) (t : Reference), (build source root).references[j]? = some t →
        t.site.id = r.site.id → j = i) ∧
      (build source root).referenceNodes.lookup r.site.id = some i ∧
      (build source root).referenceAt? r.site = some r) ∧
    ∀ (i : ScopeId) (s : ScopeRecord), (build source root).scopes[i]? = some s →
      (∀ (j : ScopeId) (t : ScopeRecord), (build source root).scopes[j]? = some t →
        t.site.id = s.site.id → j = i) ∧
      (build source root).scopeAt? s.site = some i := by
  refine ⟨fun i r hi => ⟨fun j t hj hid => reference_unique hnum hone hj hi hid, ?_, ?_⟩,
    fun i s hi => ⟨fun j t hj hid => ?_, ?_⟩⟩
  · exact lookup_referenceNodes hnum hone hi
  · exact referenceAt?_of_mem hnum hone (Array.mem_toList_iff.mpr (Array.mem_of_getElem? hi))
  · exact scope_unique hnum hone (siteOf?_eq_some.mpr ⟨t, hj, rfl⟩)
      (siteOf?_eq_some.mpr ⟨s, hi, rfl⟩) hid
  · exact scopeAt?_of_siteOf? hnum hone (siteOf?_eq_some.mpr ⟨s, hi, rfl⟩)

/-- The two occurrences of one name are found each at its own node. -/
theorem recorded_once_keyed :
    keyedMethod.Numbered ∧ keyedMethod.OneField ∧
    ∃ r t, (build keyedSource keyedMethod).references[0]? = some r ∧
      (build keyedSource keyedMethod).references[1]? = some t ∧ r.name = t.name ∧
      (build keyedSource keyedMethod).referenceAt? r.site = some r ∧
      (build keyedSource keyedMethod).referenceAt? t.site = some t := by
  have hnum : keyedMethod.Numbered := by decide
  have hone : keyedMethod.OneField := by decide
  have hr : ((build keyedSource keyedMethod).references[0]?).map (·.name) = some "k" := by
    decide +kernel
  have ht : ((build keyedSource keyedMethod).references[1]?).map (·.name) = some "k" := by
    decide +kernel
  obtain ⟨r, hr, hname⟩ := Option.map_eq_some_iff.mp hr
  obtain ⟨t, ht, hname'⟩ := Option.map_eq_some_iff.mp ht
  obtain ⟨hreferences, -⟩ := recorded_once hnum hone keyedSource
  exact ⟨hnum, hone, r, t, hr, ht, hname.trans hname'.symm, (hreferences 0 r hr).2.2,
    (hreferences 1 t ht).2.2⟩

end HookLint.Scope.Graph

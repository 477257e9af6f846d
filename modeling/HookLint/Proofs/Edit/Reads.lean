/-
What a callback reads, before and after an edit.

The path of a read is found by climbing from its identifier, and climbing stays
outside of the array (`pathAt_site`).  Nothing in the dependency argument of a call is
below its callback (`not_isBelow_callback`), so the references of the entries are not
among the callback's, and its reads are those it had (`reads_tree`).
-/
import HookLint.Proofs.Edit.Graph
import HookLint.Proofs.FreeVariables

namespace HookLint.Syntax.Edit

open HookLint.Scope HookLint.Dependency

variable {e : Edit} {root : Tree} {s c : Site}

/-! ### Paths -/

theorem accessKey?_site (hf : e.Fits root) (hs : e.Outside root s) (hne : s.id ≠ e.array)
    (c : Site) : accessKey? e.edited (e.site s) (e.site c) = accessKey? e.source s c := by
  unfold accessKey?
  rw [isField_site hf hne, field?_site hne, Option.isNone_map, kind_site]
  split
  · split
    · rw [field?_site hne, Option.map_map]
      refine Option.map_congr fun p hp => ?_
      exact text_site hf (hs.field hne hp) (Site.isSpelled_of_field hp (Or.inl rfl))
    · exact subscriptKey?_site hf hs hne
    · rfl
  · rfl

/-- A question about what stands around a site and its wrapping. -/
theorem any_parent_site (test : Site → Site → Bool) (hf : e.Fits root) (hs : e.Outside root s)
    (h : ∀ p : Site, p.id ≠ e.array → ∀ c, test (e.site p) (e.site c) = test p c) :
    (e.site s).outermost.parent?.any (test · (e.site s).outermost) =
      s.outermost.parent?.any (test · s.outermost) := by
  have ho := hs.outermost
  rw [outermost_site hf hs, parent?_site]
  generalize s.outermost = m at ho ⊢
  obtain ⟨t, above⟩ := m
  cases above with
  | nil => rfl
  | cons p above => exact h ⟨p, above⟩ ho.parent_ne _

theorem isCalled_site (hf : e.Fits root) (hs : e.Outside root s) :
    isCalled (e.site s) = isCalled s := by
  refine any_parent_site (fun p c => p.kind == .call && p.isField .function c) hf hs ?_
  intro p hne c
  rw [kind_site, isField_site hf hne]

/-- `c` is the target of the assignment `p`. -/
def isTargetOf (p c : Site) : Bool :=
  match p.kind with
  | .assignment | .augmentedAssignment => p.isField .left c
  | .update => p.isField .argument c
  | _ => false

theorem isAssigned_site (hf : e.Fits root) (hs : e.Outside root s) :
    isAssigned (e.site s) = isAssigned s := by
  refine any_parent_site isTargetOf hf hs ?_
  intro p hne c
  simp only [isTargetOf, kind_site, isField_site hf hne]

theorem climb_tree (hf : e.Fits root) (path : Path) (t : Tree) (above : List Tree)
    (hs : e.Outside root ⟨t, above⟩) :
    climb e.edited path (e.tree t) (above.map e.tree) = climb e.source path t above := by
  induction above generalizing t path with
  | nil => rfl
  | cons p above ih =>
      have hp := hs.parent
      have hwraps : (⟨e.tree p, above.map e.tree⟩ : Site).wraps
          ⟨e.tree t, e.tree p :: above.map e.tree⟩ =
          (⟨p, above⟩ : Site).wraps ⟨t, p :: above⟩ := wraps_site hf hp ⟨t, p :: above⟩
      have hkey : accessKey? e.edited ⟨e.tree p, above.map e.tree⟩
          ⟨e.tree t, e.tree p :: above.map e.tree⟩ =
          accessKey? e.source ⟨p, above⟩ ⟨t, p :: above⟩ :=
        accessKey?_site hf hp hs.parent_ne ⟨t, p :: above⟩
      have hassigned : isAssigned ⟨e.tree p, above.map e.tree⟩ = isAssigned ⟨p, above⟩ :=
        isAssigned_site hf hp
      have hcalled : isCalled ⟨e.tree p, above.map e.tree⟩ = isCalled ⟨p, above⟩ :=
        isCalled_site hf hp
      rw [List.map_cons, climb, climb]
      simp only [hwraps, hkey, hassigned, hcalled, ih _ p hp]

theorem pathAt_site (hf : e.Fits root) (hs : e.Outside root s) (hspelled : s.isSpelled = true) :
    pathAt e.edited (e.site s) = pathAt e.source s := by
  unfold pathAt
  rw [text_site hf hs hspelled]
  exact climb_tree hf _ s.tree s.above hs

/-! ### References from outside -/

theorem isSpelled_of_isNameKind (h : isNameKind s.kind = true) : s.isSpelled = true := by
  refine Site.isSpelled_of_kind ?_
  revert h
  cases s.kind <;> simp [isNameKind, Kind.isSpelled]

theorem Outside.of_reference {r : Reference}
    (hr : r ∈ (Graph.build e.source root).references.toList) (h : r.isOutside e.array = true) :
    e.Outside root r.site :=
  ⟨(Graph.site_of_mem_references hr).1, fun p hp => by simpa using List.all_eq_true.mp h p hp⟩

theorem filterMap_outside {α : Type} {n : Nat} {l : List Reference} {f : Reference → Option α}
    (h : ∀ r ∈ l, r.isOutside n = false → f r = none) :
    l.filterMap f = (l.filter (·.isOutside n)).filterMap f := by
  rw [List.filterMap_filter]
  refine List.filterMap_congr fun r hr => ?_
  cases hr' : r.isOutside n with
  | true => rfl
  | false => exact h r hr hr'

/-- The scope holds no reference below the node with a number. -/
def Clear (g : Graph) (n : Nat) (scope : ScopeId) : Prop :=
  ∀ r ∈ g.references.toList, r.isOutside n = false → g.isWithin r.scope scope = false

theorem outerReferences_eq_filter {g : Graph} {n : Nat} {scope : ScopeId} (h : Clear g n scope) :
    outerReferences g scope = (g.references.toList.filter (·.isOutside n)).filterMap fun r =>
      match r.resolved with
      | none => none
      | some b =>
        if g.isWithin r.scope scope && !g.declaredWithin b scope then some (r, b) else none := by
  refine filterMap_outside fun r hr hout => ?_
  rw [h r hr hout]
  split <;> rfl

theorem outerReferences_tree {g g' : Graph} (hmirrors : e.Mirrors g g')
    (hrefs : g'.references.toList.filter (·.isOutside (e.number e.array)) =
      (g.references.toList.filter (·.isOutside e.array)).map e.relocation.reference)
    {scope : ScopeId} (h : Clear g e.array scope) (h' : Clear g' (e.number e.array) scope) :
    outerReferences g' scope =
      (outerReferences g scope).map fun p => (e.relocation.reference p.1, p.2) := by
  rw [outerReferences_eq_filter h, outerReferences_eq_filter h', hrefs, List.filterMap_map,
    List.map_filterMap]
  refine List.filterMap_congr fun r _ => ?_
  show (match r.resolved with
    | none => none
    | some b => if g'.isWithin r.scope scope && !g'.declaredWithin b scope then
        some (e.relocation.reference r, b) else none) = _
  cases r.resolved with
  | none => rfl
  | some b =>
      simp only [hmirrors.isWithin, hmirrors.declaredWithin]
      split <;> rfl

/-- The scope of a callback holds no reference of the call's dependency argument. -/
theorem clear_callback {source : String} {convention : Hook.Convention} {t : Tree}
    (hnum : t.Numbered) (hone : t.OneField) {call : Hook.Call}
    (hcall : call ∈ Hook.calls source convention t) {deps array : Site}
    (hdeps : call.dependencies = some deps) (harray : Site.Under deps array) {scope : ScopeId}
    (hscope : (Graph.build source t).scopeAt? call.callback = some scope) :
    Clear (Graph.build source t) array.id scope := by
  obtain ⟨hunder, list, argument, hparts⟩ := Hook.parts_of_mem_calls hcall
  have hunderDeps : Site.Under (Site.root t) deps := by
    have hmem := List.mem_of_getElem? (hparts.dependencies ▸ hdeps)
    exact .child (.child hunder (Site.mem_children_of_field? hparts.arguments))
      (Site.mem_children_of_mem_namedChildren hmem)
  intro r hr hout
  have hinside : r.site.isBelow array = true := by
    rw [Reference.isOutside, List.all_eq_not_any_not] at hout
    simpa [Site.isBelow, bne] using hout
  obtain ⟨c, hc, hcr⟩ := (Site.isBelow_iff hnum (Graph.site_of_mem_references hr).1
    (hunderDeps.trans harray)).mp hinside
  have hbelow : r.site.isBelow call.callback = false :=
    Hook.not_isBelow_callback hnum hcall hdeps ((harray.trans (.of_child hc)).trans hcr)
  rw [← Bool.not_eq_true, Graph.isWithin_iff_isBelow hnum hone (hparts.callback_under hunder)
    hparts.inline hscope hr, hbelow]
  simp

/-! ### Reads -/

/-- A read at its new place. -/
def read (e : Edit) (r : Read) : Read := { r with site := e.site r.site }

/-- A callback reads what it read, if neither array's entries are in its scope. -/
theorem reads_tree (hf : e.Fits root) {g' : Graph}
    (hmirrors : e.Mirrors (Graph.build e.source root) g')
    (hrefs : g'.references.toList.filter (·.isOutside (e.number e.array)) =
      ((Graph.build e.source root).references.toList.filter (·.isOutside e.array)).map e.relocation.reference)
    {f : Site} (h : ∀ scope, (Graph.build e.source root).scopeAt? f = some scope →
      Clear (Graph.build e.source root) e.array scope ∧ Clear g' (e.number e.array) scope) :
    (extract g' e.edited (e.site f)).reads =
      (extract (Graph.build e.source root) e.source f).reads.map e.read := by
  unfold extract
  rw [hmirrors.scopeAt? hf.injective]
  cases hscope : (Graph.build e.source root).scopeAt? f with
  | none => rfl
  | some scope =>
      obtain ⟨hclear, hclear'⟩ := h scope hscope
      -- What is read in the callback stands outside of the array and is read as before.
      have hread : ∀ p ∈ outerReferences (Graph.build e.source root) scope,
          e.Outside root p.1.site ∧ p.1.site.isSpelled = true := by
        intro p hp
        obtain ⟨hr, -, hin, -⟩ := mem_outerReferences.mp hp
        have hout : p.1.isOutside e.array = true := by
          rw [← Bool.not_eq_false]
          intro hfalse
          exact Bool.false_ne_true ((hclear p.1 hr hfalse).symm.trans hin)
        exact ⟨.of_reference hr hout, isSpelled_of_isNameKind (Graph.site_of_mem_references hr).2.1⟩
      simp only [outerReferences_tree hmirrors hrefs hclear hclear', List.filter_map, List.map_map]
      rw [List.map_mergeSort (f := e.read) (s := fun a b => decide (a.site.start ≤ b.site.start))]
      · rw [List.map_map]
        refine congrArg (List.mergeSort · _) (List.map_congr_left fun p hp => ?_)
        obtain ⟨ho, hspelled⟩ := hread p (List.mem_filter.mp hp).1
        simp only [Function.comp_apply, Relocation.reference, relocation, read,
          pathAt_site hf ho hspelled]
      · intro a ha b hb
        obtain ⟨p, hp, rfl⟩ := List.mem_map.mp ha
        obtain ⟨q, hq, rfl⟩ := List.mem_map.mp hb
        obtain ⟨hop, hsp⟩ := hread p (List.mem_filter.mp hp).1
        obtain ⟨hoq, hsq⟩ := hread q (List.mem_filter.mp hq).1
        exact decide_eq_decide.mpr (start_site_le_iff hf hop hsp hoq hsq).symm

end HookLint.Syntax.Edit

/-
The scope graph of an edited tree.

A builder that meets the events of an edited tree builds what it built before, at the
new places (`Relocation.run_builder`).  Occurrences below the array are recorded and
change nothing else (`Builder.Agree.skip`).  So the graphs of the two trees have the same scopes and
bindings, and the same references outside of the array: `mirrors_build`.  Whatever is
asked of the one graph is answered by the other.
-/
import HookLint.Proofs.Edit.Outline
import HookLint.Proofs.Nesting

namespace HookLint.Syntax.Edit

open HookLint.Scope

variable {e : Edit} {root : Tree}

/-! ### Tables, at their new places -/

theorem lookup_nodes (hinj : Function.Injective e.number) (l : List (Nat × Nat)) (i : Nat) :
    (e.relocation.nodes l).lookup (e.number i) = l.lookup i := by
  induction l with
  | nil => rfl
  | cons p l ih =>
      have hbeq : (e.number i == e.number p.1) = (i == p.1) := by
        rw [Bool.eq_iff_iff, beq_iff_eq, beq_iff_eq, hinj.eq_iff]
      show ((e.number p.1, p.2) :: e.relocation.nodes l).lookup (e.number i) = _
      rw [List.lookup_cons, List.lookup_cons, hbeq, ih]

end HookLint.Syntax.Edit

/-! ### Leaving out references -/

namespace HookLint.Scope

open HookLint.Syntax

/-- The reference does not stand below the node with a number. -/
def Reference.isOutside (n : Nat) (r : Reference) : Bool := r.site.above.all (·.id != n)

/-- The second builder has the references of the first outside of a node, and all the rest. -/
structure Builder.Agree (n : Nat) (b b' : Builder) : Prop where
  stack : b'.stack = b.stack
  scopes : b'.graph.scopes = b.graph.scopes
  bindings : b'.graph.bindings = b.graph.bindings
  scopeNodes : b'.graph.scopeNodes = b.graph.scopeNodes
  references : b'.graph.references.toList = b.graph.references.toList.filter (·.isOutside n)

namespace Builder

variable {n : Nat} {b b' : Builder}

theorem Agree.home (h : Agree n b b') (target : Target) : b'.home target = b.home target := by
  cases target with
  | current => rw [Builder.home, Builder.home, current, current, h.stack]
  | hoisted => rw [Builder.home, Builder.home, hoistTarget, hoistTarget, h.stack, h.scopes]
  | module => rfl

theorem Agree.declare (h : Agree n b b') (d : Declaration) :
    Agree n (b.declare d) (b'.declare d) := by
  have hown : b'.graph.own? (b'.home d.target) d.name = b.graph.own? (b.home d.target) d.name := by
    rw [h.home, Graph.own?, Graph.own?, h.scopes]
  by_cases hd : d.name = "" ∨ (b.graph.own? (b.home d.target) d.name).isSome = true
  · have hold : b.declare d = b := if_pos hd
    have hnew : b'.declare d = b' := if_pos (by rw [hown]; exact hd)
    rw [hold, hnew]
    exact h
  · have hold : b.declare d = b.withBinding d := if_neg hd
    have hnew : b'.declare d = b'.withBinding d := if_neg (by rw [hown]; exact hd)
    rw [hold, hnew]
    exact
      { stack := h.stack
        scopes := by simp only [withBinding, h.scopes, h.home, h.bindings]
        bindings := by simp only [withBinding, h.home, h.bindings]
        scopeNodes := h.scopeNodes
        references := h.references }

/-- What is not left out is done by both. -/
theorem Agree.step (h : Agree n b b') {ev : Event} (hev : ev.isOutside n = true) :
    Agree n (b.step ev) (b'.step ev) := by
  cases ev with
  | enter kind s =>
      exact
        { stack := by simp only [Builder.step, enter, h.stack, h.scopes]
          scopes := by simp only [Builder.step, enter, h.stack, h.scopes]
          bindings := h.bindings
          scopeNodes := by simp only [Builder.step, enter, h.scopeNodes, h.scopes]
          references := h.references }
  | leave =>
      exact
        { stack := by simp only [Builder.step, leave, h.stack]
          scopes := h.scopes
          bindings := h.bindings
          scopeNodes := h.scopeNodes
          references := h.references }
  | declare d => exact h.declare d
  | refer name s access =>
      have hkeep : Reference.isOutside n ⟨name, s, b.current, access, none⟩ = true := hev
      refine
        { stack := h.stack
          scopes := h.scopes
          bindings := h.bindings
          scopeNodes := h.scopeNodes
          references := ?_ }
      simp only [Builder.step, refer, Array.toList_push, List.filter_append, h.references]
      rw [List.filter_cons_of_pos hkeep, current, current, h.stack]
      rfl

/-- What is left out is recorded, and nothing else. -/
theorem Agree.skip (h : Agree n b b') {ev : Event} (hev : ev.isOutside n = false) :
    Agree n (b.step ev) b' := by
  cases ev with
  | refer name s access =>
      have hdrop : ¬ Reference.isOutside n ⟨name, s, b.current, access, none⟩ = true := by
        rw [Bool.not_eq_true]
        exact hev
      refine
        { stack := h.stack
          scopes := h.scopes
          bindings := h.bindings
          scopeNodes := h.scopeNodes
          references := ?_ }
      simp only [Builder.step, refer, Array.toList_push, List.filter_append, h.references]
      rw [List.filter_cons_of_neg hdrop, List.filter_nil, List.append_nil]
  | _ => contradiction

theorem Agree.run (h : Agree n b b') (es : List Event) :
    Agree n (b.run es) (b'.run (es.filter (·.isOutside n))) := by
  unfold Builder.run
  induction es generalizing b b' with
  | nil => exact h
  | cons ev es ih =>
      rw [List.foldl_cons]
      cases hev : ev.isOutside n with
      | true =>
          rw [List.filter_cons_of_pos hev, List.foldl_cons]
          exact ih (h.step hev)
      | false =>
          rw [List.filter_cons_of_neg (by simp [hev])]
          exact ih (h.skip hev)

theorem agree_empty : Agree n empty empty := ⟨rfl, rfl, rfl, rfl, rfl⟩

end Builder

end HookLint.Scope

/-! ### Two graphs -/

namespace HookLint.Syntax.Edit

open HookLint.Scope

variable (e : Edit)

/-- The second graph has the scopes and bindings of the first, at the new places. -/
structure Mirrors (g g' : Graph) : Prop where
  scopes : ∀ i, g'.bare? i =
    (g.bare? i).map fun s => ((s.1.1, s.1.2.1, e.site s.1.2.2), s.2)
  bindings : g'.bindings = g.bindings.map e.relocation.binding
  scopeNodes : g'.scopeNodes = e.relocation.nodes g.scopeNodes

variable {e} {root : Tree} {g g' : Graph}

namespace Mirrors

theorem parent? (h : e.Mirrors g g') (i : ScopeId) : g'.parent? i = g.parent? i := by
  have hbare : ∀ g : Graph, g.parent? i = (g.bare? i).bind fun s => s.1.2.1.filter (· < i) := by
    intro g
    unfold Graph.parent? Graph.bare?
    cases g.scopes[i]? <;> rfl
  rw [hbare, hbare, h.scopes]
  cases g.bare? i <;> rfl

theorem ancestors (h : e.Mirrors g g') (i : ScopeId) : g'.ancestors i = g.ancestors i :=
  Graph.ancestors_congr i fun j _ => h.parent? j

theorem isWithin (h : e.Mirrors g g') (i j : ScopeId) : g'.isWithin i j = g.isWithin i j := by
  rw [Graph.isWithin, Graph.isWithin, h.ancestors]

theorem own? (h : e.Mirrors g g') (i : ScopeId) (name : String) :
    g'.own? i name = g.own? i name := by
  rw [Graph.own?_eq_bare, Graph.own?_eq_bare, h.scopes]
  cases g.bare? i <;> rfl

theorem lookup? (h : e.Mirrors g g') (i : ScopeId) (name : String) :
    g'.lookup? i name = g.lookup? i name := by
  unfold Graph.lookup? Graph.owner?
  rw [h.ancestors]
  simp only [h.own?]

theorem enclosingFunction? (h : e.Mirrors g g') (i : ScopeId) :
    g'.enclosingFunction? i = g.enclosingFunction? i := by
  have hkind : ∀ (g : Graph) (a : ScopeId), (g.scopes[a]?).any (·.kind == .function) =
      (g.bare? a).any fun s => s.1.1 == .function := by
    intro g a
    unfold Graph.bare?
    cases g.scopes[a]? <;> rfl
  unfold Graph.enclosingFunction?
  rw [h.ancestors]
  congr 1
  funext a
  rw [hkind, hkind, h.scopes]
  cases g.bare? a <;> rfl

theorem declaredWithin (h : e.Mirrors g g') (b : BindingId) (i : ScopeId) :
    g'.declaredWithin b i = g.declaredWithin b i := by
  unfold Graph.declaredWithin
  rw [h.bindings, Array.getElem?_map]
  cases g.bindings[b]? with
  | none => rfl
  | some binding => exact h.isWithin binding.scope i

theorem scopeAt? (h : e.Mirrors g g') (hinj : Function.Injective e.number) (s : Site) :
    g'.scopeAt? (e.site s) = g.scopeAt? s := by
  rw [Graph.scopeAt?, Graph.scopeAt?, h.scopeNodes, id_site, lookup_nodes hinj]

theorem enclosingScope (h : e.Mirrors g g') (hinj : Function.Injective e.number) (s : Site) :
    g'.enclosingScope (e.site s) = g.enclosingScope s := by
  have hlookup : ∀ t : Tree, g'.scopeNodes.lookup (e.tree t).id = g.scopeNodes.lookup t.id :=
    fun t => h.scopeAt? hinj ⟨t, []⟩
  have key : ∀ (above : List Tree) (t : Tree),
      g'.enclosingFrom (e.tree t) (above.map e.tree) = g.enclosingFrom t above := by
    intro above
    induction above with
    | nil =>
        intro t
        rw [List.map_nil, Graph.enclosingFrom, Graph.enclosingFrom, hlookup]
    | cons p above ih =>
        intro t
        rw [List.map_cons, Graph.enclosingFrom, Graph.enclosingFrom, hlookup, ih]
  exact key s.above s.tree

end Mirrors

theorem isOutside_reference (hf : e.Fits root) (r : Reference) :
    (e.relocation.reference r).isOutside (e.number e.array) = r.isOutside e.array :=
  isOutside_event hf (.refer r.name r.site r.access)

section Build

variable (hf : e.Fits root) (hold : QuietBelow e.array root)
  (hnew : ∀ c ∈ e.entries, ∀ t ∈ c.subtrees, isBinding t.kind = false)

include hf hold hnew

/-- Without the references below the array the builders build the same. -/
theorem exists_agree : ∃ kept : Builder,
    Builder.Agree e.array (Graph.built e.source root) kept ∧
      Builder.Agree (e.number e.array) (Graph.built e.edited (e.tree root)) (e.relocation.builder kept) := by
  refine ⟨_, Builder.agree_empty.run (unitEvents e.source root), ?_⟩
  have hrun := (Builder.agree_empty (n := e.number e.array)).run (unitEvents e.edited (e.tree root))
  rw [unitEvents_tree hf hold hnew, ← Relocation.builder_empty (m := e.relocation),
    Relocation.run_builder, Relocation.builder_empty] at hrun
  exact hrun

/-- The edit leaves the scopes and bindings of a unit as they are. -/
theorem mirrors_build :
    e.Mirrors (Graph.build e.source root) (Graph.build e.edited (e.tree root)) := by
  obtain ⟨kept, hsource, hedited⟩ := exists_agree hf hold hnew
  have halike := Graph.alike_build e.source root
  have halike' := Graph.alike_build e.edited (e.tree root)
  have hscopes : (Graph.built e.edited (e.tree root)).graph.scopes =
      (Graph.built e.source root).graph.scopes.map e.relocation.scope := by
    rw [← hedited.scopes, ← hsource.scopes]
    rfl
  refine ⟨fun i => ?_, ?_, ?_⟩
  · rw [halike'.scopes, halike.scopes, Graph.bare?, Graph.bare?, hscopes, Array.getElem?_map]
    cases (Graph.built e.source root).graph.scopes[i]? <;> rfl
  · rw [halike'.bindings, halike.bindings, ← hedited.bindings, ← hsource.bindings]
    rfl
  · rw [halike'.scopeNodes, halike.scopeNodes, ← hedited.scopeNodes, ← hsource.scopeNodes]
    rfl

/-- The edit leaves the references outside of the array as they are. -/
theorem references_tree :
    (Graph.build e.edited (e.tree root)).references.toList.filter
        (·.isOutside (e.number e.array)) =
      ((Graph.build e.source root).references.toList.filter (·.isOutside e.array)).map
        e.relocation.reference := by
  obtain ⟨kept, hsource, hedited⟩ := exists_agree hf hold hnew
  have hmirrors := mirrors_build hf hold hnew
  have hresolved : ∀ r : Reference, (Graph.built e.edited (e.tree root)).graph.resolved
      (e.relocation.reference r) = e.relocation.reference ((Graph.built e.source root).graph.resolved r) := by
    intro r
    have hlookup := hmirrors.lookup? r.scope r.name
    rw [(Graph.alike_build _ _).lookup?, (Graph.alike_build _ _).lookup?] at hlookup
    simp only [Graph.resolved, Relocation.reference, hlookup]
  have hfilter : ∀ (n : Nat) (g : Graph) (l : List Reference),
      (l.map g.resolved).filter (·.isOutside n) = (l.filter (·.isOutside n)).map g.resolved := by
    intro n g l
    rw [List.filter_map]
    rfl
  rw [Graph.references_build, Graph.references_build, ← Graph.references_built,
    ← Graph.references_built, hfilter, hfilter, ← hedited.references, ← hsource.references]
  show ((kept.graph.references.map e.relocation.reference).toList).map _ = _
  rw [Array.toList_map, List.map_map, List.map_map]
  exact List.map_congr_left fun r _ => hresolved r

end Build

end HookLint.Syntax.Edit

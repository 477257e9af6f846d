/-
The free variables of a callback.

`extract` decides through scopes what lies inside a callback and what is declared
outside of it.  The main result says the same of the tree: the reads and writes of a
callback are the references at nodes below it that mean a binding declared outside,
each listed once, reads by position (`extract_free_variables`).
-/
import HookLint.Dependency.Read
import HookLint.Proofs.Nesting
import HookLint.Proofs.Sorting

namespace HookLint.Dependency

open HookLint.Syntax HookLint.Scope

/-! ### Sorting by a key -/

/-- `sorted` is `l` in the order of a key, equal keys in the order of `l`. -/
structure SortedBy {α : Type} (key : α → Nat) (l sorted : List α) : Prop where
  perm : sorted.Perm l
  ordered : sorted.Pairwise fun a b => key a ≤ key b
  stable : ∀ k, sorted.filter (fun a => key a = k) = l.filter (fun a => key a = k)

theorem sortedBy_mergeSort {α : Type} (key : α → Nat) (l : List α) :
    SortedBy key l (l.mergeSort fun a b => key a ≤ key b) := by
  have htrans : ∀ a b c : α, decide (key a ≤ key b) = true → decide (key b ≤ key c) = true →
      decide (key a ≤ key c) = true := by
    intro a b c hab hbc
    exact decide_eq_true (Nat.le_trans (of_decide_eq_true hab) (of_decide_eq_true hbc))
  have htotal : ∀ a b : α, (decide (key a ≤ key b) || decide (key b ≤ key a)) = true := by
    intro a b
    simpa using Nat.le_total (key a) (key b)
  refine ⟨List.mergeSort_perm l _, ?_, fun k => ?_⟩
  · exact (List.pairwise_mergeSort htrans htotal l).imp of_decide_eq_true
  · refine Sorting.filter_mergeSort htrans htotal (fun a b ha hb => ?_) l
    rw [decide_eq_true_eq] at ha hb ⊢
    omega

/-! ### References from outside -/

/-- `r` occurs below `f` and means a binding declared neither in the scope of `f` nor in a scope
nested in that. -/
structure IsFree (g : Graph) (f : Site) (scope : ScopeId) (r : Reference) (b : BindingId) : Prop where
  below : r.site.isBelow f = true
  resolved : r.resolved = some b
  outside : ∃ binding, g.bindings[b]? = some binding ∧ ¬ g.Nested binding.scope scope

/-- The references of a graph that are free in `f`, each once, in the order they were met. -/
structure FreeList (g : Graph) (f : Site) (scope : ScopeId) (free : List (Reference × BindingId)) :
    Prop where
  inOrder : (free.map (·.1)).Sublist g.references.toList
  once : (free.map (·.1.site.id)).Nodup
  exactly : ∀ r b, (r, b) ∈ free ↔ r ∈ g.references.toList ∧ IsFree g f scope r b

/-- The read of a free reference. -/
def freeRead (source : String) (p : Reference × BindingId) : Read :=
  { binding := p.2, site := p.1.site, path := pathAt source p.1.site }

/-- The write of a free reference. -/
def freeWrite (p : Reference × BindingId) : Write :=
  { binding := p.2, name := p.1.name, site := writeSite p.1.site }

theorem mem_outerReferences {g : Graph} {scope : ScopeId} {r : Reference} {b : BindingId} :
    (r, b) ∈ outerReferences g scope ↔ r ∈ g.references.toList ∧ r.resolved = some b ∧
      g.isWithin r.scope scope = true ∧ g.declaredWithin b scope = false := by
  simp only [outerReferences, List.mem_filterMap]
  constructor
  · rintro ⟨r', hr', h⟩
    split at h
    · contradiction
    · split at h
      · rename_i b' hb' hcond
        injection h with h
        injection h with hr hb
        subst hr
        subst hb
        simp only [Bool.and_eq_true, Bool.not_eq_true'] at hcond
        exact ⟨hr', hb', hcond⟩
      · contradiction
  · rintro ⟨hr, hb, hin, hout⟩
    exact ⟨r, hr, by simp [hb, hin, hout]⟩

/-- What is read from outside is among the reads of the callback. -/
theorem freeRead_mem_reads {g : Graph} {source : String} {callback : Site} {scope : ScopeId}
    (hscope : g.scopeAt? callback = some scope) {p : Reference × BindingId}
    (hp : p ∈ outerReferences g scope) (hread : p.1.access.isRead = true) :
    freeRead source p ∈ (extract g source callback).reads := by
  unfold extract
  rw [hscope]
  refine List.mem_mergeSort.mpr (List.mem_map.mpr ⟨p, ?_, rfl⟩)
  exact List.mem_filter.mpr ⟨hp, hread⟩

theorem map_fst_outerReferences_sublist (g : Graph) (scope : ScopeId) :
    ((outerReferences g scope).map (·.1)).Sublist g.references.toList := by
  unfold outerReferences
  induction g.references.toList with
  | nil => exact .slnil
  | cons r rs ih =>
      rw [List.filterMap_cons]
      split
      · exact ih.cons r
      · rename_i p hp
        have hfst : p.1 = r := by
          split at hp
          · contradiction
          · split at hp
            · injection hp with hp
              rw [← hp]
            · contradiction
        rw [List.map_cons, hfst]
        exact ih.cons_cons r

variable {source : String} {root : Tree}

theorem freeList_outerReferences (hnum : root.Numbered) (hone : root.OneField) {f : Site}
    (hf : Site.Under (Site.root root) f) (hinline : f.kind.isInlineFunction = true) {scope : ScopeId}
    (hscope : (Graph.build source root).scopeAt? f = some scope) :
    FreeList (Graph.build source root) f scope
      (outerReferences (Graph.build source root) scope) := by
  have hsub := map_fst_outerReferences_sublist (Graph.build source root) scope
  refine ⟨hsub, ?_, fun r b => ?_⟩
  · have hids := hsub.map fun r : Reference => r.site.id
    rw [List.map_map] at hids
    exact hids.nodup (Graph.nodup_references hnum hone source)
  · rw [mem_outerReferences]
    refine and_congr_right fun hr => ?_
    have hwithin := Graph.isWithin_iff_isBelow hnum hone hf hinline hscope hr
    have hnested := fun s => Graph.isWithin_iff_nested (Graph.ranked_build source root) s scope
    constructor
    · rintro ⟨hb, hin, hout⟩
      obtain ⟨_, _, _, hlookup⟩ := Graph.exists_stage_of_mem_references hr
      obtain ⟨binding, hbinding, -, -⟩ :=
        (Graph.sound_build source root).binding_of_lookup? (hlookup.symm.trans hb)
      refine ⟨hwithin.mp hin, hb, binding, hbinding, fun h => ?_⟩
      rw [Graph.declaredWithin, hbinding, Option.any_some, (hnested _).mpr h] at hout
      contradiction
    · rintro ⟨hbelow, hb, binding, hbinding, hout⟩
      refine ⟨hb, hwithin.mpr hbelow, ?_⟩
      rw [Graph.declaredWithin, hbinding, Option.any_some, ← Bool.not_eq_true, hnested]
      exact hout

/-- The reads of a callback are its free variables that are read, by position, and its writes
are those that are written. -/
theorem extract_free_variables (hnum : root.Numbered) (hone : root.OneField) {f : Site}
    (hf : Site.Under (Site.root root) f) (hinline : f.kind.isInlineFunction = true) {scope : ScopeId}
    (hscope : (Graph.build source root).scopeAt? f = some scope) :
    (∀ r ∈ (Graph.build source root).references.toList,
      (Graph.build source root).Nested r.scope scope ↔ r.site.isBelow f = true) ∧
    ∃ free, FreeList (Graph.build source root) f scope free ∧
      SortedBy (·.site.start) ((free.filter (·.1.access.isRead)).map (freeRead source))
        (extract (Graph.build source root) source f).reads ∧
      (extract (Graph.build source root) source f).writes.Perm
        ((free.filter (·.1.access.isWrite)).map freeWrite) := by
  refine ⟨fun r hr => ?_, _, freeList_outerReferences hnum hone hf hinline hscope, ?_⟩
  · rw [← Graph.isWithin_iff_nested (Graph.ranked_build source root)]
    exact Graph.isWithin_iff_isBelow hnum hone hf hinline hscope hr
  · unfold extract
    rw [hscope]
    exact ⟨sortedBy_mergeSort _ _, List.mergeSort_perm _ _⟩

/-- The tree of `x => () => [x, x => x]`, where the innermost function has an `x` of its own. -/
def rebound : Tree :=
  .node ⟨0, "program", .other, true, false, [], 0, 22⟩
    [.node ⟨1, "arrow_function", .arrowFunction, true, false, [], 0, 22⟩
      [.node ⟨2, "identifier", .identifier, true, false, [.parameter], 0, 1⟩ [],
       .node ⟨3, "arrow_function", .arrowFunction, true, false, [.body], 5, 22⟩
        [.node ⟨4, "formal_parameters", .other, true, false, [.parameters], 5, 7⟩ [],
         .node ⟨5, "array", .array, true, false, [.body], 11, 22⟩
          [.node ⟨6, "identifier", .identifier, true, false, [], 12, 13⟩ [],
           .node ⟨7, "arrow_function", .arrowFunction, true, false, [], 15, 21⟩
            [.node ⟨8, "identifier", .identifier, true, false, [.parameter], 15, 16⟩ [],
             .node ⟨9, "identifier", .identifier, true, false, [.body], 20, 21⟩ []]]]]]

/-- The middle function of `rebound`. -/
def reboundCallback : Site :=
  (((Site.root rebound).children.getD 0 default).children.getD 1 default)

theorem reboundCallback_under : Site.Under (Site.root rebound) reboundCallback :=
  .child (.child (.self _) (List.mem_cons_self ..)) (.tail _ (List.mem_cons_self ..))

theorem extract_free_variables_rebound :
    rebound.Numbered ∧ rebound.OneField ∧ reboundCallback.kind.isInlineFunction = true ∧
    (Graph.build "x => () => [x, x => x]" rebound).scopeAt? reboundCallback = some 2 ∧
    ∃ free, FreeList (Graph.build "x => () => [x, x => x]" rebound) reboundCallback 2 free ∧
      SortedBy (·.site.start)
        ((free.filter (·.1.access.isRead)).map (freeRead "x => () => [x, x => x]"))
        (extract (Graph.build "x => () => [x, x => x]" rebound) "x => () => [x, x => x]"
          reboundCallback).reads := by
  have hscope : (Graph.build "x => () => [x, x => x]" rebound).scopeAt? reboundCallback = some 2 := by
    decide +kernel
  obtain ⟨-, free, hfree, hreads, -⟩ := extract_free_variables (by decide) (by decide)
    reboundCallback_under rfl hscope
  exact ⟨by decide, by decide, rfl, hscope, free, hfree, hreads⟩

end HookLint.Dependency

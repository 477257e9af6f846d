/-
What names mean.

`Means` says it by rule: a name means what its scope declares, or, where the scope declares
no such name, what it means in the parent.  `lookup?` finds just that
(`lookup?_eq_some_iff`), and finds nothing exactly when no scope on the way up declares the
name (`lookup?_eq_none_iff`).

References are resolved one after the other, each entered under its binding and under the
scope of the binding (`entered_foldl`).  As declarations are all known by then, the tables list what they should: `linked_build`.
-/
import HookLint.Proofs.Declarations

namespace HookLint.Scope

open HookLint.Syntax

namespace Graph

/-! ### The rule -/

/-- The scope declares the name, by this binding. -/
def Declares (g : Graph) (s : ScopeId) (name : String) (b : BindingId) : Prop :=
  ∃ binding, g.bindings[b]? = some binding ∧ binding.scope = s ∧ binding.name = name

/-- Seen from the scope the name means the binding. -/
inductive Means (g : Graph) (name : String) : ScopeId → BindingId → Prop
  | here {s : ScopeId} {b : BindingId} (h : g.Declares s name b) : Means g name s b
  | outer {s p : ScopeId} {b : BindingId} {scope : ScopeRecord} (hs : g.scopes[s]? = some scope)
      (hp : scope.parent = some p) (hnone : ∀ c, ¬ g.Declares s name c)
      (h : Means g name p b) : Means g name s b

section Rule

variable {g : Graph} {s p : ScopeId} {name : String}

theorem own?_eq_some_iff (hsound : g.Sound) (hfiled : g.Filed) {b : BindingId} :
    g.own? s name = some b ↔ g.Declares s name b := by
  constructor
  · intro h
    obtain ⟨binding, hb, hname, hscope⟩ := hsound.binding_of_own? h
    exact ⟨binding, hb, hscope, hname⟩
  · rintro ⟨binding, hb, rfl, rfl⟩
    exact hfiled.own b binding hb

theorem own?_eq_none_iff (hsound : g.Sound) (hfiled : g.Filed) :
    g.own? s name = none ↔ ∀ b, ¬ g.Declares s name b := by
  rw [Option.eq_none_iff_forall_ne_some]
  exact forall_congr' fun b => not_congr (own?_eq_some_iff hsound hfiled)

theorem lookup?_of_no_parent (h : g.parent? s = none) (name : String) :
    g.lookup? s name = g.own? s name := by
  unfold lookup? owner?
  rw [ancestors_of_no_parent h, List.findSome?_singleton]
  cases g.own? s name <;> rfl

/-- Looking a name up follows the rule. -/
theorem lookup?_eq_some_iff (hsound : g.Sound) (hfiled : g.Filed) (hg : g.Ranked) {b : BindingId} :
    g.lookup? s name = some b ↔ g.Means name s b := by
  induction s using Nat.strong_induction_on with
  | _ s ih =>
      cases hp : g.parent? s with
      | none =>
          rw [lookup?_of_no_parent hp, own?_eq_some_iff hsound hfiled]
          refine ⟨.here, fun h => ?_⟩
          cases h with
          | here h => exact h
          | @outer _ p _ scope hs hparent _ _ =>
              have := hg.parent?_eq_some_iff.mpr ⟨scope, hs, hparent⟩
              rw [hp] at this
              contradiction
      | some p =>
          obtain ⟨scope, hs, hparent⟩ := hg.parent?_eq_some_iff.mp hp
          rw [lookup?_eq_or (ancestors_of_parent hp), Option.or_eq_some_iff,
            own?_eq_some_iff hsound hfiled, own?_eq_none_iff hsound hfiled, ih p (lt_of_parent? hp)]
          constructor
          · rintro (h | ⟨hnone, h⟩)
            · exact .here h
            · exact .outer hs hparent hnone h
          · intro h
            cases h with
            | here h => exact Or.inl h
            | outer hs' hparent' hnone h =>
                have hpp := hg.parent?_eq_some_iff.mpr ⟨_, hs', hparent'⟩
                rw [hp, Option.some.injEq] at hpp
                exact Or.inr ⟨hnone, hpp ▸ h⟩

/-- A name means nothing exactly when no scope on the way up declares it. -/
theorem lookup?_eq_none_iff (hsound : g.Sound) (hfiled : g.Filed) (hg : g.Ranked) :
    g.lookup? s name = none ↔ ∀ t, g.Nested s t → ∀ b, ¬ g.Declares t name b := by
  unfold lookup? owner?
  rw [Option.map_eq_none_iff, List.findSome?_eq_none_iff]
  refine forall_congr' fun t => ?_
  rw [mem_ancestors_iff hg, Option.map_eq_none_iff, own?_eq_none_iff hsound hfiled]

end Rule

/-! ### Entering references -/

section Resolve

variable {g : Graph}

/-- The scope and the binding that a reference resolves to. -/
def target? (g : Graph) (id : ReferenceId) : Option (ScopeId × BindingId) :=
  (g.references[id]?).bind fun r => g.owner? r.scope r.name

/-- The references listed in a scope. -/
def listed? (g : Graph) (s : ScopeId) : Option (List ReferenceId) :=
  (g.scopes[s]?).map (·.references)

theorem resolveOne_of_none {id : ReferenceId} (h : g.target? id = none) : g.resolveOne id = g := by
  unfold target? at h
  unfold resolveOne
  split
  · rfl
  · rename_i r hr
    rw [hr, Option.bind_some] at h
    rw [h]

theorem resolveOne_of_some {id : ReferenceId} {s : ScopeId} {b : BindingId}
    (h : g.target? id = some (s, b)) :
    g.resolveOne id =
      { g with
        references := g.references.modify id fun r => { r with resolved := some b }
        scopes := g.scopes.modify s fun scope =>
          { scope with references := scope.references ++ [id] }
        uses := g.uses.modify b fun refs => refs ++ [id] } := by
  obtain ⟨r, hr, howner⟩ := Option.bind_eq_some_iff.mp h
  unfold resolveOne
  rw [hr]
  dsimp only
  rw [howner]

/-- Resolving a reference does not change what any reference resolves to. -/
theorem target?_resolveOne (id j : ReferenceId) : (g.resolveOne id).target? j = g.target? j := by
  have halike := alike_resolveOne g id
  unfold target?
  simp only [halike.owner?]
  cases htarget : g.target? id with
  | none => rw [resolveOne_of_none htarget]
  | some t =>
      rw [resolveOne_of_some htarget]
      simp only [Array.getElem?_modify]
      split
      · cases g.references[j]? <;> rfl
      · rfl

/-- A reference is entered last among those of its binding. -/
theorem uses_resolveOne (id : ReferenceId) (b : BindingId) :
    (g.resolveOne id).uses[b]? = (g.uses[b]?).map
      (· ++ [id].filter fun i => (g.target? i).map Prod.snd = some b) := by
  cases htarget : g.target? id with
  | none => simp [resolveOne_of_none htarget, htarget]
  | some t =>
      rw [resolveOne_of_some htarget]
      by_cases hb : t.2 = b <;> simp [Array.getElem?_modify, htarget, hb]

theorem listed?_resolveOne (id : ReferenceId) (s : ScopeId) :
    (g.resolveOne id).listed? s = (g.listed? s).map
      (· ++ [id].filter fun i => (g.target? i).map Prod.fst = some s) := by
  cases htarget : g.target? id with
  | none => simp [resolveOne_of_none htarget, htarget]
  | some t =>
      rw [resolveOne_of_some htarget]
      by_cases hs : t.1 = s <;>
        simp [listed?, Array.getElem?_modify, htarget, hs, Function.comp_def]

theorem target?_foldl (ids : List ReferenceId) (j : ReferenceId) :
    (ids.foldl resolveOne g).target? j = g.target? j := by
  induction ids generalizing g with
  | nil => rfl
  | cons id ids ih => rw [List.foldl_cons, ih, target?_resolveOne]

/-- Where each resolved reference is entered last, all are entered in order. -/
theorem entered_foldl (view : Graph → Option (List ReferenceId)) (f : ScopeId × BindingId → Nat)
    (key : Nat)
    (hview : ∀ (g : Graph) (id : ReferenceId), view (g.resolveOne id) =
      (view g).map (· ++ [id].filter fun i => (g.target? i).map f = some key))
    (ids : List ReferenceId) :
    view (ids.foldl resolveOne g) =
      (view g).map (· ++ ids.filter fun i => (g.target? i).map f = some key) := by
  induction ids generalizing g with
  | nil => simp
  | cons id ids ih =>
      rw [List.foldl_cons, ih, hview, Option.map_map]
      simp only [target?_resolveOne, Function.comp_def, List.append_assoc, ← List.filter_append,
        List.singleton_append]

end Resolve

/-! ### Nothing is entered while building -/

/-- No reference is entered under a binding or a scope. -/
structure Unlinked (g : Graph) : Prop where
  uses : g.uses = Array.replicate g.bindings.size []
  listed : ∀ (s : ScopeId) (scope : ScopeRecord), g.scopes[s]? = some scope → scope.references = []

end Graph

namespace Builder

variable {b : Builder}

theorem unlinked_enter (h : b.graph.Unlinked) (kind : ScopeKind) (site : Site) :
    (b.enter kind site).graph.Unlinked where
  uses := h.uses
  listed s scope hs := by
    simp only [enter, Array.getElem?_push] at hs
    split at hs
    · injection hs with hs
      rw [← hs]
    · exact h.listed s scope hs

theorem unlinked_withBinding (h : b.graph.Unlinked) (d : Declaration) :
    (b.withBinding d).graph.Unlinked where
  uses := by
    simp only [withBinding, Array.size_push, h.uses]
    exact Array.replicate_succ.symm
  listed s scope hs := by
    simp only [withBinding, Array.getElem?_modify] at hs
    split at hs
    · obtain ⟨scope', hs', rfl⟩ := Option.map_eq_some_iff.mp hs
      exact h.listed s scope' hs'
    · exact h.listed s scope hs

theorem unlinked_step (h : b.graph.Unlinked) (e : Event) : (b.step e).graph.Unlinked := by
  cases e with
  | enter kind site => exact unlinked_enter h kind site
  | leave => exact h
  | refer => exact ⟨h.uses, h.listed⟩
  | declare d =>
      show (b.declare d).graph.Unlinked
      rcases declare_cases b d with heq | ⟨-, heq⟩ <;> rw [heq]
      · exact h
      · exact unlinked_withBinding h d

theorem unlinked_run (h : b.graph.Unlinked) (es : List Event) : (b.run es).graph.Unlinked := by
  induction es generalizing b with
  | nil => exact h
  | cons e es ih => exact ih (unlinked_step h e)

end Builder

/-! ### The tables of the finished graph -/

namespace Graph

/-- The references of which `p` holds, in order. -/
def referencesWhere (g : Graph) (p : Reference → Bool) : List ReferenceId :=
  (List.range g.references.size).filter fun i => (g.references[i]?).any p

/-- The scope of the binding that a reference resolves to. -/
def homeOf? (g : Graph) (r : Reference) : Option ScopeId :=
  (r.resolved.bind (g.bindings[·]?)).map (·.scope)

theorem mem_referencesWhere {g : Graph} {p : Reference → Bool} {i : ReferenceId} :
    i ∈ g.referencesWhere p ↔ ∃ r, g.references[i]? = some r ∧ p r = true := by
  rw [referencesWhere, List.mem_filter, List.mem_range, Option.any_eq_true]
  refine ⟨And.right, fun h => ⟨?_, h⟩⟩
  obtain ⟨r, hr, -⟩ := h
  exact (Array.getElem?_eq_some_iff.mp hr).1

theorem filterMap_range_getElem? {α : Type} (l : List α) :
    (List.range l.length).filterMap (l[·]?) = l := by
  induction l with
  | nil => rfl
  | cons a l ih =>
      rw [List.length_cons, List.range_succ_eq_map, List.filterMap_cons_some List.getElem?_cons_zero,
        List.filterMap_map]
      exact congrArg (a :: ·) ih

theorem filterMap_referencesWhere (g : Graph) (p : Reference → Bool) :
    (g.referencesWhere p).filterMap (g.references[·]?) = g.references.toList.filter p := by
  conv_rhs => rw [← filterMap_range_getElem? g.references.toList, List.filter_filterMap]
  rw [referencesWhere, List.filterMap_filter, Array.length_toList]
  refine List.filterMap_congr fun i _ => ?_
  rw [Array.getElem?_toList]
  cases g.references[i]? with
  | none => rfl
  | some r => rw [Option.any_some, Option.filter_some]

section Build

variable {source : String} {root : Tree}

theorem unlinked_built (source : String) (root : Tree) : (built source root).graph.Unlinked := by
  have hempty : Builder.empty.graph.Unlinked :=
    ⟨rfl, by simp [Builder.empty, Graph.empty]⟩
  exact Builder.unlinked_run hempty _

theorem resolved_eq_lookup? {r : Reference} (hr : r ∈ (build source root).references) :
    r.resolved = (build source root).lookup? r.scope r.name := by
  obtain ⟨-, -, -, h⟩ := exists_stage_of_mem_references (Array.mem_toList_iff.mpr hr)
  exact h

theorem size_references_built (source : String) (root : Tree) :
    (built source root).graph.references.size = (build source root).references.size := by
  rw [← Array.length_toList, ← Array.length_toList, references_build, List.length_map,
    references_built]

/-- Every reference is resolved. -/
theorem foldl_built (source : String) (root : Tree) :
    (List.range (build source root).references.size).foldl resolveOne (built source root).graph =
      build source root := by
  rw [← size_references_built]
  rfl

theorem target?_built (i : ReferenceId) :
    (built source root).graph.target? i = (build source root).target? i :=
  (target?_foldl _ i).symm

/-- A reference resolves to the binding that it was entered under. -/
theorem target?_snd (i : ReferenceId) :
    ((build source root).target? i).map Prod.snd =
      ((build source root).references[i]?).bind (·.resolved) := by
  unfold target?
  cases hr : (build source root).references[i]? with
  | none => rfl
  | some r =>
      rw [Option.bind_some, Option.bind_some, resolved_eq_lookup? (Array.mem_of_getElem? hr)]
      rfl

theorem owner?_fst {s : ScopeId} {name : String} :
    ((build source root).owner? s name).map Prod.fst =
      (((build source root).lookup? s name).bind ((build source root).bindings[·]?)).map
        (·.scope) := by
  unfold lookup?
  cases howner : (build source root).owner? s name with
  | none => rfl
  | some t =>
      obtain ⟨a, -, hmap⟩ := List.exists_of_findSome?_eq_some howner
      obtain ⟨b, hown, rfl⟩ := Option.map_eq_some_iff.mp hmap
      obtain ⟨binding, hb, -, hscope⟩ := (sound_build source root).binding_of_own? hown
      simp [hb, hscope]

/-- A reference was entered in the scope of the binding that it resolves to. -/
theorem target?_fst (i : ReferenceId) :
    ((build source root).target? i).map Prod.fst =
      ((build source root).references[i]?).bind (build source root).homeOf? := by
  unfold target?
  cases hr : (build source root).references[i]? with
  | none => rfl
  | some r =>
      rw [Option.bind_some, Option.bind_some, owner?_fst, homeOf?,
        resolved_eq_lookup? (Array.mem_of_getElem? hr)]

/-- The references of a binding are those that resolve to it. -/
theorem uses_build (b : BindingId) :
    (build source root).uses[b]? = ((build source root).bindings[b]?).map fun _ =>
      (build source root).referencesWhere fun r => r.resolved = some b := by
  have hold : (built source root).graph.uses[b]? =
      ((build source root).bindings[b]?).map fun _ => [] := by
    rw [(unlinked_built source root).uses, ← (alike_build source root).bindings,
      Array.getElem?_replicate]
    split
    · rename_i hb
      rw [Array.getElem?_eq_getElem hb, Option.map_some]
    · rename_i hb
      rw [Array.getElem?_eq_none (Nat.le_of_not_lt hb), Option.map_none]
  have hrun := entered_foldl (g := (built source root).graph) (fun g => g.uses[b]?) Prod.snd b
    (fun _ id => uses_resolveOne id b) (List.range (build source root).references.size)
  rw [foldl_built, hold, Option.map_map] at hrun
  rw [hrun]
  refine congrArg (Option.map · _) (funext fun _ => ?_)
  rw [Function.comp_apply, List.nil_append, referencesWhere]
  refine List.filter_congr fun i _ => ?_
  rw [target?_built, target?_snd]
  cases (build source root).references[i]? <;> simp

/-- The references listed in a scope are those that resolve to what it declares. -/
theorem listed_build {s : ScopeId} {scope : ScopeRecord}
    (hs : (build source root).scopes[s]? = some scope) :
    scope.references =
      (build source root).referencesWhere fun r => (build source root).homeOf? r = some s := by
  have hold : (built source root).graph.listed? s = some [] := by
    obtain ⟨scope', hs', -⟩ := (alike_build source root).exists_scope hs
    rw [listed?, hs', Option.map_some, (unlinked_built source root).listed s scope' hs']
  have hrun := entered_foldl (g := (built source root).graph) (fun g => g.listed? s) Prod.fst s
    (fun _ id => listed?_resolveOne id s) (List.range (build source root).references.size)
  rw [foldl_built, hold, Option.map_some, List.nil_append, listed?, hs, Option.map_some,
    Option.some.injEq] at hrun
  rw [hrun, referencesWhere]
  refine List.filter_congr fun i _ => ?_
  rw [target?_built, target?_fst]
  cases (build source root).references[i]? <;> simp

/-- What a reference resolves to is a binding of its name. -/
theorem binding_of_resolved {r : Reference} (hr : r ∈ (build source root).references)
    {b : BindingId} (h : r.resolved = some b) :
    ∃ binding, (build source root).bindings[b]? = some binding ∧ binding.name = r.name := by
  rw [resolved_eq_lookup? hr] at h
  obtain ⟨binding, hb, hname, -⟩ := (sound_build source root).binding_of_lookup? h
  exact ⟨binding, hb, hname⟩

/-- Every reference to a binding is found from it. -/
theorem referencesTo_build (b : BindingId) :
    (build source root).referencesTo b =
      (build source root).references.toList.filter fun r => r.resolved = some b := by
  unfold referencesTo
  rw [uses_build]
  cases hb : (build source root).bindings[b]? with
  | some binding => exact filterMap_referencesWhere _ _
  | none =>
      refine (List.filter_eq_nil_iff.mpr fun r hr h => ?_).symm
      obtain ⟨binding, hbinding, -⟩ :=
        binding_of_resolved (Array.mem_toList_iff.mp hr) (of_decide_eq_true h)
      rw [hb] at hbinding
      contradiction

/-- A reference is under the binding it resolves to and no other. -/
theorem mem_uses_iff {i : ReferenceId} {r : Reference}
    (hr : (build source root).references[i]? = some r) (b : BindingId) :
    (∃ ids, (build source root).uses[b]? = some ids ∧ i ∈ ids) ↔ r.resolved = some b := by
  rw [uses_build]
  constructor
  · rintro ⟨ids, hids, hi⟩
    obtain ⟨-, -, rfl⟩ := Option.map_eq_some_iff.mp hids
    obtain ⟨r', hr', h⟩ := mem_referencesWhere.mp hi
    rw [hr, Option.some.injEq] at hr'
    exact hr' ▸ of_decide_eq_true h
  · intro h
    obtain ⟨binding, hb, -⟩ := binding_of_resolved (Array.mem_of_getElem? hr) h
    rw [hb]
    exact ⟨_, rfl, mem_referencesWhere.mpr ⟨r, hr, decide_eq_true h⟩⟩

/-- A reference is in the scope that declares what it resolves to and no other. -/
theorem mem_listed_iff {i : ReferenceId} {r : Reference}
    (hr : (build source root).references[i]? = some r) (s : ScopeId) :
    (∃ scope, (build source root).scopes[s]? = some scope ∧ i ∈ scope.references) ↔
      (build source root).homeOf? r = some s := by
  constructor
  · rintro ⟨scope, hs, hi⟩
    rw [listed_build hs] at hi
    obtain ⟨r', hr', h⟩ := mem_referencesWhere.mp hi
    rw [hr, Option.some.injEq] at hr'
    exact hr' ▸ of_decide_eq_true h
  · intro h
    obtain ⟨binding, hbinding, hscope⟩ := Option.map_eq_some_iff.mp h
    obtain ⟨b, -, hb⟩ := Option.bind_eq_some_iff.mp hbinding
    obtain ⟨scope, hs, -⟩ :=
      Option.bind_eq_some_iff.mp ((filed_build source root).own b binding hb)
    rw [hscope] at hs
    refine ⟨scope, hs, ?_⟩
    rw [listed_build hs]
    exact mem_referencesWhere.mpr ⟨r, hr, decide_eq_true h⟩

end Build

/-! ### Names and what they mean -/

/-- References and the declarations they resolve to are linked both ways. -/
structure Linked (g : Graph) : Prop where
  /-- A reference resolves to what its name means seen from its scope. -/
  resolved : ∀ r ∈ g.references, r.resolved = g.lookup? r.scope r.name
  means : ∀ (s : ScopeId) (name : String) (b : BindingId),
    g.lookup? s name = some b ↔ g.Means name s b
  /-- Only a name that no scope around declares is global. -/
  global : ∀ (s : ScopeId) (name : String),
    g.lookup? s name = none ↔ ∀ t, g.Nested s t → ∀ b, ¬ g.Declares t name b
  /-- Under a binding are the references that resolve to it. -/
  uses : ∀ b : BindingId, g.uses[b]? =
    (g.bindings[b]?).map fun _ => g.referencesWhere fun r => r.resolved = some b
  referencesTo : ∀ b, g.referencesTo b = g.references.toList.filter fun r => r.resolved = some b
  /-- In a scope are the references that resolve to its bindings. -/
  listed : ∀ (s : ScopeId) (scope : ScopeRecord), g.scopes[s]? = some scope →
    scope.references = g.referencesWhere fun r => g.homeOf? r = some s
  /-- A reference that resolves is under one binding and in one scope. -/
  once : ∀ (i : ReferenceId) (r : Reference), g.references[i]? = some r → r.resolved ≠ none →
    (∃! b : BindingId, ∃ ids, g.uses[b]? = some ids ∧ i ∈ ids) ∧
      ∃! s : ScopeId, ∃ scope, g.scopes[s]? = some scope ∧ i ∈ scope.references

/-- In the graph of a unit every name is linked to the innermost declaration of it, wherever
in the unit that stands. -/
theorem linked_build (source : String) (root : Tree) : (build source root).Linked where
  resolved _ hr := resolved_eq_lookup? hr
  means _ _ _ := lookup?_eq_some_iff (sound_build source root) (filed_build source root)
    (ranked_build source root)
  global _ _ := lookup?_eq_none_iff (sound_build source root) (filed_build source root)
    (ranked_build source root)
  uses := uses_build
  referencesTo := referencesTo_build
  listed _ _ := listed_build
  once i r hr hsome := by
    obtain ⟨b, hb⟩ := Option.ne_none_iff_exists'.mp hsome
    obtain ⟨binding, hbinding, -⟩ := binding_of_resolved (Array.mem_of_getElem? hr) hb
    have hhome : (build source root).homeOf? r = some binding.scope := by
      rw [homeOf?, hb, Option.bind_some, hbinding]
      rfl
    simp only [mem_uses_iff hr, mem_listed_iff hr, hb, hhome, Option.some.injEq]
    exact ⟨⟨b, rfl, fun _ h => h.symm⟩, ⟨binding.scope, rfl, fun _ h => h.symm⟩⟩

end Graph

end HookLint.Scope

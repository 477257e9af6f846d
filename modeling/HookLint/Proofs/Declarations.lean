/-
Where names are declared.

A declaration is entered in the table of bindings and among the names of its home, unless
it has no name or its home has the name already.  So the two tables say the same
(`Graph.Filed`), and what a scope has under a name is the first declaration of that name
there (`declared?_build`).

Every scope but the unit's own is opened inside another one (`exists_parent`), so going up
from any scope ends at the unit's (`getLast?_ancestors`).  On the way a hoisted declaration
finds the function or module that is its home (`nearest_hoisted`).
-/
import HookLint.Proofs.Binders
import HookLint.Proofs.Nesting

namespace HookLint.Scope

open HookLint.Syntax

/-- The binding a scope has under a name. -/
def Graph.declared? (g : Graph) (s : ScopeId) (name : String) : Option Binding :=
  (g.own? s name).bind (g.bindings[·]?)

/-- Whether a binding is one of this name in this scope. -/
def Binding.isAt (s : ScopeId) (name : String) (binding : Binding) : Bool :=
  binding.scope = s ∧ binding.name = name

theorem Binding.isAt_iff {s : ScopeId} {name : String} {binding : Binding} :
    binding.isAt s name = true ↔ binding.scope = s ∧ binding.name = name := by
  simp [isAt]

namespace Builder

variable {b : Builder}

/-! ### The names of a scope -/

theorem own?_enter (kind : ScopeKind) (s : Site) (i : ScopeId) (name : String) :
    (b.enter kind s).graph.own? i name = b.graph.own? i name := by
  unfold enter Graph.own?
  rw [Array.getElem?_push]
  split
  · rename_i hi
    rw [hi, Array.getElem?_eq_none (Nat.le_refl _)]
    rfl
  · rfl

/-- A binding adds its name to its home, after the names that are there. -/
theorem own?_withBinding {d : Declaration} (hhome : b.home d.target < b.graph.scopes.size)
    (i : ScopeId) (name : String) :
    (b.withBinding d).graph.own? i name = (b.graph.own? i name).or
      (if b.home d.target = i ∧ d.name = name then some b.graph.bindings.size else none) := by
  unfold withBinding Graph.own?
  rw [Array.getElem?_modify]
  by_cases hi : b.home d.target = i
  · subst hi
    have hname : [(d.name, b.graph.bindings.size)].lookup name =
        if d.name = name then some b.graph.bindings.size else none := by
      by_cases hname : d.name = name
      · simp [hname]
      · simp [hname, List.lookup_cons, beq_false_of_ne (Ne.symm hname)]
    rw [if_pos rfl, Array.getElem?_eq_getElem hhome]
    simp only [Option.map_some, Option.bind_some, List.lookup_append, true_and, hname]
  · rw [if_neg hi, if_neg fun h => hi h.1, Option.or_none]

theorem declare_refused {d : Declaration}
    (h : d.name = "" ∨ (b.graph.own? (b.home d.target) d.name).isSome = true) : b.declare d = b :=
  if_pos h

theorem declare_entered {d : Declaration}
    (h : ¬ (d.name = "" ∨ (b.graph.own? (b.home d.target) d.name).isSome = true)) :
    b.declare d = b.withBinding d :=
  if_neg h

/-! ### Builders inside a unit -/

/-- The builder has entered a unit. -/
structure Begun (b : Builder) : Prop where
  opened : b.Open
  sound : b.graph.Sound
  size_pos : 0 < b.graph.scopes.size

theorem Begun.step (h : Begun b) (e : Event) : Begun (b.step e) where
  opened := h.opened.step e
  sound := sound_step h.sound e
  size_pos := Nat.lt_of_lt_of_le h.size_pos (extends_step e).size_le

theorem Begun.current_lt (h : Begun b) : b.current < b.graph.scopes.size := by
  unfold current
  cases hstack : b.stack with
  | nil => exact h.size_pos
  | cons top below => exact h.opened.lt_size top (hstack ▸ List.mem_cons_self)

theorem Begun.home_lt (h : Begun b) (target : Target) : b.home target < b.graph.scopes.size := by
  cases target with
  | current => exact h.current_lt
  | hoisted =>
      show (Option.getD (b.stack.find? _) moduleScope) < _
      cases hfind : b.stack.find? _ with
      | none => exact h.size_pos
      | some i => exact h.opened.lt_size i (List.mem_of_find?_eq_some hfind)
  | module => exact h.size_pos

/-! ### The first declaration of a name -/

/-- What a declaration would enter in the table of bindings. -/
def bindingOf (b : Builder) (d : Declaration) : Binding :=
  { name := d.name, kind := d.kind, scope := b.home d.target, ident := d.ident
    declaration := d.declaration, init := d.init, pattern := d.pattern }

/-- The binding a stage offers. -/
def offered : Builder × Event → Option Binding
  | (b, .declare d) => if d.name = "" then none else some (b.bindingOf d)
  | _ => none

theorem offered_eq_some {p : Builder × Event} {binding : Binding} (h : offered p = some binding) :
    ∃ d, p.2 = .declare d ∧ d.name ≠ "" ∧ binding = p.1.bindingOf d := by
  obtain ⟨b, e⟩ := p
  cases e with
  | declare d =>
      by_cases hname : d.name = ""
      · simp [offered, hname] at h
      · simp only [offered, if_neg hname, Option.some.injEq] at h
        exact ⟨d, rfl, hname, h.symm⟩
  | _ => contradiction

theorem declared?_withBinding (hsound : b.graph.Sound) {d : Declaration}
    (hhome : b.home d.target < b.graph.scopes.size) (s : ScopeId) (name : String) :
    (b.withBinding d).graph.declared? s name = (b.graph.declared? s name).or
      ((some (b.bindingOf d)).filter (Binding.isAt s name)) := by
  unfold Graph.declared?
  rw [own?_withBinding hhome]
  show Option.bind _ (fun k => (b.graph.bindings.push (b.bindingOf d))[k]?) = _
  cases hown : b.graph.own? s name with
  | some k =>
      -- The name was there, and its binding keeps its place.
      obtain ⟨binding, hk, -, -⟩ := hsound.binding_of_own? hown
      have hlt := (Array.getElem?_eq_some_iff.mp hk).1
      rw [Option.some_or, Option.bind_some, Option.bind_some, Array.getElem?_push,
        if_neg (Nat.ne_of_lt hlt), hk, Option.some_or]
  | none =>
      rw [Option.none_or, Option.bind_none, Option.none_or]
      by_cases hat : b.home d.target = s ∧ d.name = name
      · have hat' : (b.bindingOf d).isAt s name = true := Binding.isAt_iff.mpr hat
        rw [if_pos hat, Option.bind_some, Array.getElem?_push_size, Option.filter_some,
          if_pos hat']
      · have hat' : ¬ (b.bindingOf d).isAt s name = true := fun h => hat (Binding.isAt_iff.mp h)
        rw [if_neg hat, Option.bind_none, Option.filter_some, if_neg hat']

/-- A stage gives a name the binding it offers, unless the name has one. -/
theorem declared?_step (h : Begun b) (e : Event) (s : ScopeId) (name : String) :
    (b.step e).graph.declared? s name =
      (b.graph.declared? s name).or ((offered (b, e)).filter (Binding.isAt s name)) := by
  cases e with
  | enter kind site =>
      show Option.bind ((b.enter kind site).graph.own? s name) _ = _
      rw [own?_enter]
      exact (Option.or_none).symm
  | leave => exact (Option.or_none).symm
  | refer => exact (Option.or_none).symm
  | declare d =>
      show (b.declare d).graph.declared? s name = _
      by_cases hname : d.name = ""
      · rw [declare_refused (Or.inl hname), offered, if_pos hname, Option.filter_none,
          Option.or_none]
      · rw [offered, if_neg hname]
        cases hown : b.graph.own? (b.home d.target) d.name with
        | none =>
            rw [declare_entered (by simp [hname, hown])]
            exact declared?_withBinding h.sound (h.home_lt _) s name
        | some k =>
            rw [declare_refused (Or.inr (by simp [hown]))]
            by_cases hat : (b.bindingOf d).isAt s name = true
            · obtain ⟨hs, hn⟩ := Binding.isAt_iff.mp hat
              obtain ⟨binding, hk, -, -⟩ := h.sound.binding_of_own? hown
              have hdeclared : b.graph.declared? s name = some binding := by
                rw [Graph.declared?, ← hs, ← hn]
                exact (congrArg (Option.bind · _) hown).trans hk
              rw [hdeclared, Option.some_or]
            · rw [Option.filter_some, if_neg hat, Option.or_none]

/-- A name of a scope means the first binding that was offered for it. -/
theorem declared?_run (h : Begun b) (es : List Event) (s : ScopeId) (name : String) :
    (b.run es).graph.declared? s name = (b.graph.declared? s name).or
      (((stages step b es).filterMap offered).find? (Binding.isAt s name)) := by
  induction es generalizing b with
  | nil => exact (Option.or_none).symm
  | cons e es ih =>
      show ((b.step e).run es).graph.declared? s name = _
      rw [ih (h.step e), declared?_step h e, Option.or_assoc, stages, List.filterMap_cons]
      cases offered (b, e) with
      | none => rfl
      | some binding =>
          rw [Option.filter_some, List.find?_cons]
          cases binding.isAt s name <;> rfl

end Builder

/-! ### Names and bindings -/

/-- The names of the scopes and the table of bindings say the same. -/
structure Graph.Filed (g : Graph) : Prop where
  /-- A binding is found in its own scope, under its own name. -/
  own : ∀ (i : BindingId) (binding : Binding), g.bindings[i]? = some binding →
    g.own? binding.scope binding.name = some i
  /-- A scope has a name once. -/
  nodup : ∀ (i : ScopeId) (scope : ScopeRecord), g.scopes[i]? = some scope →
    (scope.names.map Prod.fst).Nodup
  named : ∀ binding ∈ g.bindings, binding.name ≠ ""

namespace Builder

variable {b : Builder}

theorem filed_enter (h : b.graph.Filed) (kind : ScopeKind) (s : Site) :
    (b.enter kind s).graph.Filed where
  own i binding hi := (own?_enter kind s _ _).trans (h.own i binding hi)
  nodup i scope hs := by
    simp only [enter, Array.getElem?_push] at hs
    split at hs
    · injection hs with hs
      rw [← hs]
      exact List.nodup_nil
    · exact h.nodup i scope hs
  named := h.named

theorem filed_withBinding (h : b.graph.Filed) {d : Declaration}
    (hhome : b.home d.target < b.graph.scopes.size) (hname : d.name ≠ "")
    (hfresh : b.graph.own? (b.home d.target) d.name = none) :
    (b.withBinding d).graph.Filed where
  own i binding hi := by
    rw [own?_withBinding hhome]
    replace hi : (b.graph.bindings.push (b.bindingOf d))[i]? = some binding := hi
    rw [Array.getElem?_push] at hi
    split at hi
    · rename_i hsize
      injection hi with hi
      subst hi
      rw [show b.graph.own? (b.bindingOf d).scope (b.bindingOf d).name = none from hfresh,
        Option.none_or, if_pos ⟨rfl, rfl⟩, hsize]
    · rw [h.own i binding hi, Option.some_or]
  nodup i scope hs := by
    simp only [withBinding, Array.getElem?_modify] at hs
    split at hs
    · rename_i hi
      obtain ⟨scope', hs', rfl⟩ := Option.map_eq_some_iff.mp hs
      -- The name is not among those that the scope has.
      rw [hi, Graph.own?, hs', Option.bind_some, List.lookup_eq_none_iff] at hfresh
      have hnew : d.name ∉ scope'.names.map Prod.fst := by
        intro hmem
        obtain ⟨p, hp, heq⟩ := List.mem_map.mp hmem
        simpa [heq] using hfresh p hp
      rw [List.map_append, List.map_singleton, ← List.concat_eq_append]
      exact (h.nodup i scope' hs').concat hnew
    · exact h.nodup i scope hs
  named binding hmem := by
    rcases Array.mem_push.mp hmem with hmem | rfl
    · exact h.named binding hmem
    · exact hname

theorem filed_step (hbegun : Begun b) (h : b.graph.Filed) (e : Event) :
    (b.step e).graph.Filed := by
  cases e with
  | enter kind s => exact filed_enter h kind s
  | leave => exact h
  | refer => exact ⟨h.own, h.nodup, h.named⟩
  | declare d =>
      show (b.declare d).graph.Filed
      by_cases hrefused : d.name = "" ∨ (b.graph.own? (b.home d.target) d.name).isSome = true
      · rw [declare_refused hrefused]
        exact h
      · rw [declare_entered hrefused]
        obtain ⟨hname, hfresh⟩ := not_or.mp hrefused
        exact filed_withBinding h (hbegun.home_lt _) hname (by simpa using hfresh)

theorem filed_run (hbegun : Begun b) (h : b.graph.Filed) (es : List Event) :
    (b.run es).graph.Filed := by
  induction es generalizing b with
  | nil => exact h
  | cons e es ih => exact ih (hbegun.step e) (filed_step hbegun h e)

end Builder

/-! ### The bindings of a unit -/

namespace Graph

variable {source : String} {root : Tree}

theorem begun_entered (root : Tree) : (entered root).Begun where
  opened := open_entered root
  sound := Builder.sound_enter Builder.sound_empty _ _
  size_pos := Nat.one_pos

/-- Names are declared and met inside the unit. -/
theorem begun_of_mem_unitStages {b : Builder} {e : Event} (h : (b, e) ∈ unitStages source root)
    (he : e.opens? = none) : b.Begun :=
  stages_inv Builder.Begun (fun _ e hb => hb.step e) _ _ (begun_entered root) _
    (mem_body_of_mem_unitStages h he)

theorem current_lt_size {b : Builder} {e : Event} (h : (b, e) ∈ unitStages source root)
    (he : e.opens? = none) : b.current < (build source root).scopes.size :=
  Nat.lt_of_lt_of_le (begun_of_mem_unitStages h he).current_lt (extends_build h).size_le

theorem filed_build (source : String) (root : Tree) : (build source root).Filed := by
  have hempty : Builder.empty.graph.Filed :=
    ⟨by simp [Builder.empty, Graph.empty], by simp [Builder.empty, Graph.empty],
      by simp [Builder.empty, Graph.empty]⟩
  have h : (built source root).graph.Filed :=
    Builder.filed_run (begun_entered root) (Builder.filed_enter hempty _ _) _
  have halike := alike_build source root
  refine ⟨fun i binding hi => ?_, fun i scope hs => ?_, fun binding hmem => ?_⟩
  · rw [halike.own?]
    exact h.own i binding (halike.bindings ▸ hi)
  · obtain ⟨scope', hs', hnames⟩ := halike.exists_scope hs
    exact hnames ▸ h.nodup i scope' hs'
  · exact h.named binding (halike.bindings ▸ hmem)

/-- What a scope has under a name is the first declaration of that name there. -/
theorem declared?_build (source : String) (root : Tree) (s : ScopeId) (name : String) :
    (build source root).declared? s name =
      ((unitStages source root).filterMap Builder.offered).find? (Binding.isAt s name) := by
  have halike := alike_build source root
  have hnone : (entered root).graph.declared? s name = none := by
    rw [declared?, show (entered root).graph.own? s name = none from Builder.own?_enter _ _ _ _]
    rfl
  have hrun := Builder.declared?_run (begun_entered root) (Visit.unitBody source root) s name
  rw [declared?, halike.own?, halike.bindings]
  exact hrun.trans (by rw [hnone]; rfl)

/-- Every binding was declared at a stage, the first to declare its name in its scope. -/
theorem exists_stage_of_binding {i : BindingId} {binding : Binding}
    (h : (build source root).bindings[i]? = some binding) :
    ∃ before b d after, unitStages source root = before ++ (b, .declare d) :: after ∧
      binding = b.bindingOf d ∧
      ∀ p ∈ before, ∀ other, Builder.offered p = some other →
        other.isAt binding.scope binding.name = false := by
  have hdeclared : (build source root).declared? binding.scope binding.name = some binding := by
    rw [declared?, (filed_build source root).own i binding h]
    exact h
  rw [declared?_build, List.find?_filterMap] at hdeclared
  obtain ⟨⟨b, e⟩, hfind, hoffered⟩ := Option.bind_eq_some_iff.mp hdeclared
  obtain ⟨-, before, after, hstages, hbefore⟩ := List.find?_eq_some_iff_append.mp hfind
  obtain ⟨d, rfl, -, hbinding⟩ := Builder.offered_eq_some hoffered
  refine ⟨before, b, d, after, hstages, hbinding, fun p hp other hother => ?_⟩
  simpa [hother] using hbefore p hp

/-- What is declared is declared by syntax of the tree. -/
theorem binds_of_mem_unitStages {b : Builder} {d : Declaration}
    (h : (b, .declare d) ∈ unitStages source root) :
    ∃ t, Site.Under (Site.root root) t ∧ Binds t d.binder := by
  have hevent : .declare d ∈ unitEvents source root := by
    rw [← map_snd_stages (f := Builder.step) Builder.empty (unitEvents source root)]
    exact List.mem_map_of_mem h
  exact binds_of_mem_unitEvents hevent

/-- The initializer of a binding is the value of a declarator of the tree. -/
theorem initializer_of_binding {k : BindingId} {binding : Binding} {i : Site}
    (h : (build source root).bindings[k]? = some binding) (hi : binding.init = some i) :
    ∃ t, Site.Under (Site.root root) t ∧ Initializes t i := by
  obtain ⟨before, b, d, after, hstages, rfl, -⟩ := exists_stage_of_binding h
  have hmem : (b, .declare d) ∈ unitStages source root := by simp [hstages]
  obtain ⟨t, ht, hbinds⟩ := binds_of_mem_unitStages hmem
  exact ⟨t, ht, hbinds.initializes hi⟩

theorem under_initializer {k : BindingId} {binding : Binding} {i : Site}
    (h : (build source root).bindings[k]? = some binding) (hi : binding.init = some i) :
    Site.Under (Site.root root) i := by
  obtain ⟨t, ht, -, d, hd, -, hvalue⟩ := initializer_of_binding h hi
  exact .child (.child ht (Site.mem_children_of_mem_namedChildren hd))
    (Site.mem_children_of_field? hvalue)

/-! ### The way up -/

/-- The unit's own scope is the first, and the others are opened inside of it. -/
theorem outlines_eq (source : String) (root : Tree) :
    (build source root).scopes.toList.map ScopeRecord.outline =
      (.module, none, Site.root root) ::
        (stages Builder.step (entered root) (Visit.unitBody source root)).filterMap
          Builder.opened := by
  rw [outlines_scopes, unitStages_eq]
  rfl

theorem outline?_eq_getElem? (g : Graph) (i : ScopeId) :
    g.outline? i = (g.scopes.toList.map ScopeRecord.outline)[i]? := by
  rw [outline?, List.getElem?_map, Array.getElem?_toList]

theorem outline?_module (source : String) (root : Tree) :
    (build source root).outline? moduleScope = some (.module, none, Site.root root) := by
  rw [outline?_eq_getElem?, outlines_eq]
  rfl

/-- Every scope but the unit's own was opened inside another one. -/
theorem exists_parent {i : ScopeId} {scope : ScopeRecord}
    (h : (build source root).scopes[i]? = some scope) (hi : i ≠ moduleScope) :
    ∃ p, scope.parent = some p ∧ p < i := by
  obtain ⟨k, rfl⟩ := Nat.exists_eq_succ_of_ne_zero hi
  have hmem : scope.outline ∈
      (stages Builder.step (entered root) (Visit.unitBody source root)).filterMap
        Builder.opened := by
    have hout : (build source root).outline? (k + 1) = some scope.outline := by
      rw [outline?, h]
      rfl
    rw [outline?_eq_getElem?, outlines_eq, List.getElem?_cons_succ] at hout
    exact List.mem_of_getElem? hout
  obtain ⟨⟨b, e⟩, hstage, hopened⟩ := List.mem_filterMap.mp hmem
  cases e with
  | enter kind s =>
      obtain ⟨top, below, hstack⟩ := List.exists_cons_of_ne_nil (stack_ne_nil_of_mem_body hstage)
      injection hopened with hopened
      have hparent : scope.parent = some top := by
        have : b.stack.head? = scope.parent := congrArg (·.2.1) hopened
        rw [← this, hstack]
        rfl
      exact ⟨top, hparent, ranked_build source root _ scope top h hparent⟩
  | _ => simp [Builder.opened] at hopened

theorem parent?_module (source : String) (root : Tree) :
    (build source root).parent? moduleScope = none := by
  rw [parent?_eq_outline, outline?_module]
  rfl

/-- Going up from a scope ends at the unit's own. -/
theorem getLast?_ancestors {i : ScopeId} (hi : i < (build source root).scopes.size) :
    ((build source root).ancestors i).getLast? = some moduleScope := by
  induction i using Nat.strong_induction_on with
  | _ i ih =>
      by_cases h0 : i = moduleScope
      · rw [h0, ancestors_of_no_parent (parent?_module source root)]
        rfl
      · have hscope := Array.getElem?_eq_getElem hi
        obtain ⟨p, hp, hlt⟩ := exists_parent hscope h0
        have hparent : (build source root).parent? i = some p := by
          simp [parent?, hscope, hp, hlt]
        rw [ancestors_of_parent hparent, List.getLast?_cons, ih p hlt (Nat.lt_trans hlt hi)]
        rfl

/-! ### Hoisting -/

section Nearest

variable {g g' : Graph} {P : ScopeKind → Prop}

/-- The scope is of such a kind. -/
def KindIs (g : Graph) (P : ScopeKind → Prop) (i : ScopeId) : Prop :=
  ∃ scope, g.scopes[i]? = some scope ∧ P scope.kind

theorem kindIs_iff_outline {i : ScopeId} :
    g.KindIs P i ↔ ∃ o, g.outline? i = some o ∧ P o.1 := by
  simp [KindIs, outline?, ScopeRecord.outline]

theorem Extends.kindIs (h : g.Extends g') {i : ScopeId} (hi : i < g.scopes.size) :
    g'.KindIs P i ↔ g.KindIs P i := by
  rw [kindIs_iff_outline, h i hi, kindIs_iff_outline]

/-- `t` is the nearest scope of such a kind at or above `s`. -/
structure Nearest (g : Graph) (P : ScopeKind → Prop) (s t : ScopeId) : Prop where
  nested : g.Nested s t
  kindIs : g.KindIs P t
  /-- Any other is further up. -/
  outside : ∀ u, g.Nested s u → g.KindIs P u → g.Nested t u

/-- Above a scope on the way up is the rest of the way. -/
theorem ancestors_of_append {s t : ScopeId} {inner outer : List ScopeId}
    (h : g.ancestors s = inner ++ t :: outer) : g.ancestors t = t :: outer := by
  induction s using Nat.strong_induction_on generalizing inner with
  | _ s ih =>
      cases inner with
      | nil =>
          have hs : s = t := by
            cases hp : g.parent? s with
            | none => rw [ancestors_of_no_parent hp] at h; exact (List.cons.inj h).1
            | some p => rw [ancestors_of_parent hp] at h; exact (List.cons.inj h).1
          exact hs ▸ h
      | cons a inner =>
          cases hp : g.parent? s with
          | none =>
              rw [ancestors_of_no_parent hp] at h
              simp at h
          | some p =>
              rw [ancestors_of_parent hp] at h
              exact ih p (lt_of_parent? hp) (List.cons.inj h).2

/-- The first scope of a kind on the way up is the nearest. -/
theorem nearest_of_find? (hg : g.Ranked) {s t : ScopeId} {p : ScopeId → Bool}
    (hp : ∀ i ∈ g.ancestors s, p i = true ↔ g.KindIs P i)
    (h : (g.ancestors s).find? p = some t) : g.Nearest P s t := by
  obtain ⟨ht, inner, outer, hway, hinner⟩ := List.find?_eq_some_iff_append.mp h
  have hmem := List.mem_of_find?_eq_some h
  refine ⟨(mem_ancestors_iff hg).mp hmem, (hp t hmem).mp ht, fun u hu hkind => ?_⟩
  rw [← mem_ancestors_iff hg] at hu ⊢
  have hpu := (hp u hu).mpr hkind
  rw [hway] at hu
  rcases List.mem_append.mp hu with hu | hu
  · simpa [hpu] using hinner u hu
  · rwa [ancestors_of_append hway]

end Nearest

/-- A hoisted declaration lands in the nearest function or module around it. -/
theorem nearest_hoisted {b : Builder} {d : Declaration}
    (h : (b, .declare d) ∈ unitStages source root) :
    (build source root).Nearest (fun kind => kind = .function ∨ kind = .module) b.current
      (b.home .hoisted) := by
  have hopen : b.Open := open_of_mem_unitStages h
  have hancestors := ancestors_current h rfl
  -- The builder looks at the kinds of the scopes it has, which they keep.
  let hoists (i : ScopeId) : Bool := (b.graph.scopes[i]?).any fun scope =>
    scope.kind == .function || scope.kind == .module
  have hhoists : ∀ i ∈ b.stack, hoists i = true ↔
      (build source root).KindIs (fun kind => kind = .function ∨ kind = .module) i := by
    intro i hi
    rw [(extends_build h).kindIs (hopen.lt_size i hi)]
    simp [hoists, KindIs, Option.any_eq_true]
  have hsome : (b.stack.find? hoists).isSome = true := by
    rw [List.find?_isSome]
    have hmodule : moduleScope ∈ b.stack := by
      rw [← hancestors]
      exact List.mem_of_getLast? (getLast?_ancestors (current_lt_size h rfl))
    exact ⟨moduleScope, hmodule, (hhoists _ hmodule).mpr
      (kindIs_iff_outline.mpr ⟨_, outline?_module source root, Or.inr rfl⟩)⟩
  obtain ⟨t, ht⟩ := Option.isSome_iff_exists.mp hsome
  have hhome : b.home .hoisted = t := by
    show (b.stack.find? hoists).getD moduleScope = t
    rw [ht]
    rfl
  rw [hhome]
  rw [← hancestors] at ht hhoists
  exact nearest_of_find? (ranked_build source root) hhoists ht

end Graph

end HookLint.Scope

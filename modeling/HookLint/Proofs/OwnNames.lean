/-
The own name of a function expression.

The name of a function expression is declared in the scope of the function, right after
the scope is opened (`announced_unitEvents`).  Parameters and the declarations of the body
share that scope, and the first declaration of a name is the one that counts, so the own
name always wins: a parameter or variable of the same name is never bound
(`declared?_ownName`), and whatever refers to the name in the function means the function
itself (`own_name_hides_iff`).
-/
import HookLint.Proofs.Resolution

namespace HookLint.Scope

open HookLint.Syntax

/-! ### Functions are announced by their name -/

/-- The declaration of a function expression's own name. -/
def ownDeclaration (source : String) (f n : Site) : Declaration :=
  { name := n.text source, kind := .functionName, target := .current, ident := n, declaration := f
    init := none, pattern := [] }

/-- Wherever a function expression with a name is entered, the name is declared next. -/
def Announced (source : String) (es : List Event) : Prop :=
  ∀ before f after n, es = before ++ .enter .function f :: after →
    f.kind = .functionExpression → f.field? .name = some n →
      ∃ rest, after = .declare (ownDeclaration source f n) :: rest

section Announced

variable {source : String}

theorem announced_nil : Announced source [] := by
  intro before f after n heq
  exact absurd heq.symm (by simp)

theorem announced_append {as bs : List Event} (ha : Announced source as)
    (hb : Announced source bs) : Announced source (as ++ bs) := by
  intro before f after n heq hkind hname
  rcases List.append_eq_append_iff.mp heq with ⟨mid, rfl, hbs⟩ | ⟨mid, rfl, hmid⟩
  · exact hb mid f after n hbs hkind hname
  · cases mid with
    | nil => exact hb [] f after n hmid.symm hkind hname
    | cons e mid =>
        injection hmid with he hafter
        obtain ⟨rest, rfl⟩ := ha before f mid n (by rw [he]) hkind hname
        exact ⟨rest ++ bs, hafter⟩

/-- An event in front of announced functions, which announces its own if it enters one. -/
theorem announced_cons {e : Event} {es : List Event} (hes : Announced source es)
    (he : ∀ f n, e = .enter .function f → f.kind = .functionExpression → f.field? .name = some n →
      ∃ rest, es = .declare (ownDeclaration source f n) :: rest) : Announced source (e :: es) := by
  intro before f after n heq hkind hname
  cases before with
  | nil =>
      injection heq with hhead htail
      subst htail
      exact he f n hhead hkind hname
  | cons _ before =>
      injection heq with _ htail
      exact hes before f after n htail hkind hname

theorem announced_quiet {steps : List Step} (hquiet : ∀ x ∈ steps, x.Quiet)
    (hvisit : ∀ r c, .visit r c ∈ steps → Announced source (events source r c)) :
    Announced source (steps.flatMap (Step.events source)) := by
  induction steps with
  | nil => exact announced_nil
  | cons x xs ih =>
      refine announced_append ?_ (ih (fun y hy => hquiet y (List.mem_cons_of_mem _ hy))
        fun r c hc => hvisit r c (List.mem_cons_of_mem _ hc))
      cases x with
      | visit r c => exact hvisit r c List.mem_cons_self
      | emit e =>
          refine announced_cons announced_nil fun f n he => ?_
          subst he
          exact (hquiet _ List.mem_cons_self).elim

/-- The body of a function expression starts with its own name. -/
theorem functionBody_ownName (source : String) {f n : Site} (hkind : f.kind = .functionExpression)
    (hname : f.field? .name = some n) :
    ∃ rest, functionBody source f = .emit (.declare (ownDeclaration source f n)) :: rest := by
  refine ⟨(functionBody source f).tail, ?_⟩
  simp [functionBody, hkind, nameSteps, hname, declareSteps, ownDeclaration]

theorem announced_region {s : Site} {kind : ScopeKind} {steps : List Step}
    (hquiet : ∀ x ∈ steps, x.Quiet) (hbody : kind = .function → steps = functionBody source s)
    (hvisit : ∀ r c, .visit r c ∈ steps → Announced source (events source r c)) :
    Announced source ((region kind s steps).flatMap (Step.events source)) := by
  have hleave : Announced source [.leave] :=
    announced_cons announced_nil fun _ _ he => by contradiction
  have hinner := announced_append (announced_quiet hquiet hvisit) hleave
  have hevents : (region kind s steps).flatMap (Step.events source) =
      .enter kind s :: (steps.flatMap (Step.events source) ++ [.leave]) := by
    rw [region, List.flatMap_cons, List.flatMap_append]
    rfl
  rw [hevents]
  refine announced_cons hinner fun f n he hkind hname => ?_
  injection he with hfunction hs
  subst hs
  obtain ⟨rest, hrest⟩ := functionBody_ownName source hkind hname
  rw [hbody hfunction, hrest]
  exact ⟨_, rfl⟩

theorem announced_layout {s : Site} {steps : List Step} (h : Layout source s steps)
    (hvisit : ∀ r c, .visit r c ∈ steps → Announced source (events source r c)) :
    Announced source (steps.flatMap (Step.events source)) := by
  cases h with
  | plain h => exact announced_quiet h hvisit
  | region kind hbefore h hbody =>
      rw [List.flatMap_append]
      refine announced_append (announced_quiet (fun x hx => (hbefore x hx).quiet) ?_)
        (announced_region h hbody ?_)
      · exact fun r c hc => hvisit r c (List.mem_append_left _ hc)
      · refine fun r c hc => hvisit r c (List.mem_append_right _ ?_)
        exact List.mem_cons_of_mem _ (List.mem_append_left _ hc)

theorem announced_events (source : String) : ∀ (size : Nat) (role : Role) (s : Site),
    sizeOf s.tree = size → Announced source (events source role s) := by
  intro size
  induction size using Nat.strong_induction_on with
  | _ size ih =>
      intro role s hsize
      rw [events_eq]
      exact announced_layout (expand_layout source role s) fun r c hc =>
        ih _ (hsize ▸ expand_within hc) r c rfl

theorem announced_unitEvents (source : String) (root : Tree) :
    Announced source (unitEvents source root) := by
  rw [unitEvents_eq, unitSteps]
  refine announced_region quiet_visits (fun hkind => ?_) fun r c _ => ?_
  · contradiction
  · exact announced_events source _ r c rfl

end Announced

/-! ### Where a scope is opened -/

namespace Builder

variable {b : Builder}

theorem size_step (e : Event) :
    (b.step e).graph.scopes.size = b.graph.scopes.size + e.opens?.toList.length := by
  cases e with
  | enter => exact Array.size_push ..
  | leave => rfl
  | refer => rfl
  | declare d =>
      show (b.declare d).graph.scopes.size = _
      rcases declare_cases b d with heq | ⟨-, heq⟩ <;> rw [heq]
      · rfl
      · exact Array.size_modify ..

/-- A scope that a run opens is entered by one of its events, after all scopes before it. -/
theorem exists_enter_of_run {es : List Event} {i : ScopeId} {kind : ScopeKind}
    {parent : Option ScopeId} {s : Site} (h : (b.run es).graph.outline? i = some (kind, parent, s))
    (hi : b.graph.scopes.size ≤ i) :
    ∃ before after, es = before ++ .enter kind s :: after ∧
      (b.run before).graph.scopes.size = i := by
  induction es generalizing b with
  | nil =>
      have hlt := Graph.outline?_isSome.mp (Option.isSome_of_eq_some h)
      exact absurd hlt (Nat.not_lt.mpr hi)
  | cons e es ih =>
      by_cases hle : (b.step e).graph.scopes.size ≤ i
      · obtain ⟨before, after, rfl, hsize⟩ := ih h hle
        exact ⟨e :: before, after, rfl, hsize⟩
      · -- The first event opens the scope.
        have hlt : i < (b.step e).graph.scopes.size := Nat.lt_of_not_le hle
        have hsize := hlt
        rw [size_step] at hsize
        cases e with
        | enter kind' s' =>
            have hnew : i = b.graph.scopes.size := Nat.le_antisymm (Nat.le_of_lt_succ hsize) hi
            have hout := extends_run (b := b.enter kind' s') es i hlt
            rw [outline?_enter, if_pos hnew] at hout
            have heq := Option.some.inj (h.symm.trans hout)
            simp only [Prod.mk.injEq] at heq
            exact ⟨[], es, by rw [heq.1, heq.2.2]; rfl, hnew.symm⟩
        | _ => exact absurd hi (Nat.not_le.mpr hsize)

end Builder

/-! ### What the name of a function expression means -/

/-- The binding of a function expression's own name. -/
def ownBinding (source : String) (s : ScopeId) (f n : Site) : Binding :=
  { name := n.text source, kind := .functionName, scope := s, ident := n, declaration := f
    init := none, pattern := [] }

namespace Graph

variable {source : String} {root : Tree}

/-- What is declared before a scope is opened is declared in other scopes. -/
theorem scope_lt_of_offered {es : List Event} (hes : es <+: unitEvents source root)
    {p : Builder × Event} (hp : p ∈ stages Builder.step Builder.empty es) {binding : Binding}
    (hoffered : Builder.offered p = some binding) :
    binding.scope < (Builder.empty.run es).graph.scopes.size := by
  obtain ⟨b, e⟩ := p
  obtain ⟨d, rfl, -, rfl⟩ := Builder.offered_eq_some hoffered
  obtain ⟨rest, hrest⟩ := hes
  have hmem : (b, .declare d) ∈ unitStages source root := by
    rw [unitStages, ← hrest, stages_append]
    exact List.mem_append_left _ hp
  exact Nat.lt_of_lt_of_le ((begun_of_mem_unitStages hmem rfl).home_lt d.target)
    (Builder.extends_of_mem_stages hp).size_le

/-- The first thing declared in a function expression is its own name. -/
theorem declared?_ownName {s : ScopeId} {parent : Option ScopeId} {f n : Site}
    (hs : (build source root).outline? s = some (.function, parent, f))
    (hkind : f.kind = .functionExpression) (hname : f.field? .name = some n)
    (hne : n.text source ≠ "") :
    (build source root).declared? s (n.text source) = some (ownBinding source s f n) := by
  rw [(alike_build source root).outline?] at hs
  obtain ⟨before, after, hevents, hsize⟩ :=
    Builder.exists_enter_of_run (b := Builder.empty) hs (Nat.zero_le _)
  obtain ⟨rest, rfl⟩ := announced_unitEvents source root before f after n hevents hkind hname
  have hbefore : ((stages Builder.step Builder.empty before).filterMap Builder.offered).find?
      (Binding.isAt s (n.text source)) = none := by
    refine List.find?_eq_none.mpr fun binding hbinding hat => ?_
    obtain ⟨p, hp, hoffered⟩ := List.mem_filterMap.mp hbinding
    have hlt := scope_lt_of_offered ⟨_, hevents.symm⟩ hp hoffered
    rw [(Binding.isAt_iff.mp hat).1, hsize] at hlt
    exact Nat.lt_irrefl _ hlt
  rw [declared?_build, unitStages, hevents, stages_append, List.filterMap_append, List.find?_append,
    hbefore, Option.none_or]
  -- The two events that follow are the opening of the scope and the declaration.
  have hfirst : Builder.offered ((Builder.empty.run before).enter .function f,
      .declare (ownDeclaration source f n)) = some (ownBinding source s f n) := by
    rw [Builder.offered, if_neg (show (ownDeclaration source f n).name ≠ "" from hne), ← hsize]
    rfl
  have hat : (ownBinding source s f n).isAt s (n.text source) = true :=
    Binding.isAt_iff.mpr ⟨rfl, rfl⟩
  rw [stages, stages, List.filterMap_cons_none rfl]
  exact (congrArg (List.find? _) (List.filterMap_cons_some hfirst)).trans
    (List.find?_cons_of_pos hat)

theorem eq_ownBinding_of_declares {s : ScopeId} {parent : Option ScopeId} {f n : Site}
    (hs : (build source root).outline? s = some (.function, parent, f))
    (hkind : f.kind = .functionExpression) (hname : f.field? .name = some n) {k : BindingId}
    (hk : (build source root).Declares s (n.text source) k) :
    (build source root).bindings[k]? = some (ownBinding source s f n) := by
  have hfiled := filed_build source root
  have hown := (own?_eq_some_iff (sound_build source root) hfiled).mpr hk
  obtain ⟨binding, hbinding, -, hbname⟩ := hk
  have hne : n.text source ≠ "" := hbname ▸ hfiled.named binding (Array.mem_of_getElem? hbinding)
  rw [← declared?_ownName hs hkind hname hne, declared?, hown, Option.bind_some]

/-- A function's own name yields to other declarations of the name in the function's scope: no
reference that resolves there means the function itself. -/
def Yields (g : Graph) (s : ScopeId) (name : String) : Prop :=
  ∀ r ∈ g.references.toList, r.name = name → ∀ k binding, r.resolved = some k →
    g.bindings[k]? = some binding → binding.scope = s → binding.kind ≠ .functionName

/-- The scope of a function expression has the function itself under the function's name, and
nothing else that is declared under that name.  So the name yields only where nothing refers
to it. -/
theorem own_name_hides_iff {source : String} {root : Tree} {s : ScopeId} {scope : ScopeRecord}
    (hscope : (build source root).scopes[s]? = some scope) (hfunction : scope.kind = .function)
    (hkind : scope.site.kind = .functionExpression) {n : Site}
    (hname : scope.site.field? .name = some n) :
    (n.text source ≠ "" → ∃ k, (build source root).Declares s (n.text source) k) ∧
    (∀ k, (build source root).Declares s (n.text source) k →
      (build source root).bindings[k]? = some (ownBinding source s scope.site n)) ∧
    ((build source root).Yields s (n.text source) ↔
      ∀ r ∈ (build source root).references.toList, r.name = n.text source →
        (build source root).homeOf? r ≠ some s) := by
  have hs : (build source root).outline? s = some (.function, scope.parent, scope.site) := by
    rw [outline?, hscope, Option.map_some, ScopeRecord.outline, hfunction]
  have hown : ∀ k, (build source root).Declares s (n.text source) k →
      (build source root).bindings[k]? = some (ownBinding source s scope.site n) :=
    fun k hk => eq_ownBinding_of_declares hs hkind hname hk
  refine ⟨fun hne => ?_, hown, fun hyields r hr hrname hhome => ?_,
    fun hnone r hr hrname k binding hk hbinding hbscope => ?_⟩
  · obtain ⟨k, -, hk⟩ := Option.bind_eq_some_iff.mp (declared?_ownName hs hkind hname hne)
    exact ⟨k, _, hk, rfl, rfl⟩
  · obtain ⟨binding, hresolved, hbscope⟩ := Option.map_eq_some_iff.mp hhome
    obtain ⟨k, hk, hbinding⟩ := Option.bind_eq_some_iff.mp hresolved
    obtain ⟨binding', hbinding', hbname⟩ := binding_of_resolved (Array.mem_toList_iff.mp hr) hk
    have hsame : binding' = binding := Option.some.inj (hbinding'.symm.trans hbinding)
    subst hsame
    have hdeclares := hown k ⟨binding', hbinding, hbscope, hbname.trans hrname⟩
    exact hyields r hr hrname k _ hk hdeclares rfl rfl
  · exact absurd (by rw [homeOf?, hk, Option.bind_some, hbinding, Option.map_some, hbscope])
      (hnone r hr hrname)

/-- The tree of `(function f(f) { f; })`. -/
def selfNamed : Tree :=
  .node ⟨0, "program", .other, true, false, [], 0, 22⟩
    [.node ⟨1, "expression_statement", .other, true, false, [], 0, 22⟩
      [.node ⟨2, "parenthesized_expression", .parenthesized, true, false, [], 0, 22⟩
        [.node ⟨3, "function_expression", .functionExpression, true, false, [], 1, 21⟩
          [.node ⟨4, "identifier", .identifier, true, false, [.name], 10, 11⟩ [],
           .node ⟨5, "formal_parameters", .other, true, false, [.parameters], 11, 14⟩
            [.node ⟨6, "identifier", .identifier, true, false, [], 12, 13⟩ []],
           .node ⟨7, "statement_block", .statementBlock, true, false, [.body], 15, 21⟩
            [.node ⟨8, "expression_statement", .other, true, false, [], 17, 19⟩
              [.node ⟨9, "identifier", .identifier, true, false, [], 17, 18⟩ []]]]]]]

def selfNamedSource : String := "(function f(f) \x7b f; \x7d)"

/-- The function's scope has the function under the name of its parameter. -/
theorem own_name_hides_iff_parameter :
    ∃ scope n, (build selfNamedSource selfNamed).scopes[1]? = some scope ∧
      scope.kind = .function ∧ scope.site.kind = .functionExpression ∧
      scope.site.field? .name = some n ∧ n.text selfNamedSource = "f" ∧
      ∃ k, (build selfNamedSource selfNamed).Declares 1 "f" k ∧
        (build selfNamedSource selfNamed).bindings[k]? =
          some (ownBinding selfNamedSource 1 scope.site n) := by
  have hscope : ((build selfNamedSource selfNamed).scopes[1]?).map (fun scope =>
      (scope.kind, scope.site.kind, (scope.site.field? .name).map (·.text selfNamedSource))) =
        some (.function, .functionExpression, some "f") := by decide +kernel
  obtain ⟨scope, hscope, heq⟩ := Option.map_eq_some_iff.mp hscope
  simp only [Prod.mk.injEq] at heq
  obtain ⟨hfunction, hkind, hname⟩ := heq
  obtain ⟨n, hname, htext⟩ := Option.map_eq_some_iff.mp hname
  obtain ⟨hdeclared, hown, -⟩ := own_name_hides_iff hscope hfunction hkind hname
  obtain ⟨k, hk⟩ := hdeclared (by rw [htext]; decide)
  exact ⟨scope, n, hscope, hfunction, hkind, hname, htext, k, htext ▸ hk, hown k hk⟩

/-- A parameter is declared in the scope of a function of the same name, and the name means the
function there. -/
theorem parameter_hidden :
    (∃ binding ∈ (unitStages selfNamedSource selfNamed).filterMap Builder.offered,
      binding.kind = .parameter ∧ binding.scope = 1 ∧ binding.name = "f") ∧
    ¬ (build selfNamedSource selfNamed).Yields 1 "f" := by
  have hmeans : ∃ r ∈ (build selfNamedSource selfNamed).references.toList, r.name = "f" ∧
      (r.resolved.bind ((build selfNamedSource selfNamed).bindings[·]?)).map
        (fun binding => (binding.scope, binding.kind)) = some (1, .functionName) := by
    decide +kernel
  refine ⟨by decide +kernel, fun hyields => ?_⟩
  obtain ⟨r, hr, hname, hmeans⟩ := hmeans
  obtain ⟨binding, hresolved, heq⟩ := Option.map_eq_some_iff.mp hmeans
  obtain ⟨k, hk, hbinding⟩ := Option.bind_eq_some_iff.mp hresolved
  injection heq with hscope hkind
  exact hyields r hr hname k binding hk hbinding hscope hkind

end Graph

end HookLint.Scope

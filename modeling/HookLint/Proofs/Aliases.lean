/-
Stability through aliases.

A variable is classified by its own initializer and pattern, with one exception: a
variable whose initializer is a name, or a member of what a name stands for, is the
result of a safe hook when the binding behind the name is.  `Classifier.Aliases` is one
such step, `Classifier.Chain` a number of them.  Following a chain ends at sixteen steps,
so a binding is the result of a safe hook exactly when a chain of at most that length
leads to a call of one (`classifyWithin_eq_safeHook_iff`).

A step is a matter of one initializer, so there is only one way to follow a chain.  The
call of a safe hook is no alias, and a chain that runs into a cycle never meets one.
-/
import HookLint.Proofs.Edit.Stability
import Mathlib.Logic.Relation

namespace HookLint.Syntax.Site

/-- What is left when all wrapping is peeled off wraps nothing. -/
theorem wrapped?_unwrap (s : Site) : s.unwrap.wrapped? = none := by
  fun_induction unwrap s with
  | case1 s inner _ ih => exact ih
  | case2 s h => exact h

theorem unwrap_unwrap (s : Site) : s.unwrap.unwrap = s.unwrap := by
  rw [unwrap]
  split
  · rename_i inner hwrapped
    rw [wrapped?_unwrap] at hwrapped
    contradiction
  · rfl

theorem isPrimitive_unwrap (s : Site) : s.unwrap.isPrimitive = s.isPrimitive := by
  simp [isPrimitive, unwrap_unwrap]

end HookLint.Syntax.Site

namespace HookLint.Scope

open HookLint.Syntax

/-! ### The keyword of an initializer -/

variable {source : String} {root : Tree} {s : Site}

/-- The kind of variable declared where an initializer stands: that of the declaration around
its declarator. -/
def keywordAt (source : String) (init : Site) : VariableKind :=
  ((init.parent?.bind (·.parent?)).map (declaredKind source)).getD .letVar

/-- A binder with an initializer declares variables, of the kind the initializer's declaration
says. -/
def Keyworded (source : String) (b : Binder) : Prop :=
  ∀ init, b.init = some init → b.kind = .variable (keywordAt source init)

/-- A variable declaration hands on the keyword it was written with. -/
theorem Declares.keyworded {role : Role} {b : Binder} (h : Declares source role s b)
    (hrole : ∀ b, role.binder? = some b → Keyworded source b) : Keyworded source b := by
  cases h with
  | handed h => exact hrole b h
  | own _ _ hbinds hkeyword =>
      intro init hinit
      obtain ⟨-, d, hd, -, hvalue⟩ := hbinds.initializes hinit
      have hdecl : d.parent? = some s :=
        Site.parent?_of_mem_children (Site.mem_children_of_mem_namedChildren hd)
      have hinner : init.parent? = some d :=
        Site.parent?_of_mem_children (Site.mem_children_of_field? hvalue)
      rw [hkeyword init hinit]
      simp [keywordAt, hinner, hdecl]

/-- On the way down from the unit, names are declared with the keyword of their declaration. -/
theorem Visit.Arrives.keyworded {v : Visit} (h : Arrives source root v) :
    ∀ b, v.role.binder? = some b → Keyworded source b := by
  obtain ⟨start, -, hreaches⟩ := h
  induction hreaches with
  | refl => exact nofun
  | tail _ hstep ih =>
      exact fun b hb => (declares_of_mem_expand (mem_of_mem_stages hstep) hb).keyworded ih

/-- The initializer of a binding says which keyword the binding is declared by. -/
theorem Graph.kind_of_initializer {b : BindingId} {binding : Binding} {init : Site}
    (h : (build source root).bindings[b]? = some binding) (hinit : binding.init = some init) :
    binding.kind = .variable (keywordAt source init) := by
  obtain ⟨before, builder, d, after, hstages, rfl, -⟩ := exists_stage_of_binding h
  have hstage : (builder, .declare d) ∈ unitStages source root := by simp [hstages]
  rcases Visit.mem_traced_unit.mp (mem_traced_of_mem_stages hstage) with h | h | ⟨v, hv, h⟩
  · exact absurd (congrArg Prod.snd h) (by simp)
  · exact absurd (congrArg Prod.snd h) (by simp)
  · exact (declares_of_mem_expand (mem_of_mem_stages h) rfl).keyworded hv.keyworded init hinit

end HookLint.Scope

namespace HookLint.Dependency

open HookLint.Syntax HookLint.Scope HookLint.Hook

/-! ### Expressions that start at a name -/

/-- The expression is an identifier, or accesses a member of an expression that starts at it, with
casts at any level. -/
inductive RootedAt : Site → Site → Prop
  | name {s : Site} (hkind : s.unwrap.kind = .identifier) : RootedAt s s.unwrap
  | access {s object ident : Site} (hkind : s.unwrap.kind = .member ∨ s.unwrap.kind = .subscript)
      (hobject : s.unwrap.field? .object = some object) (h : RootedAt object ident) :
      RootedAt s ident

theorem RootedAt.kind {init ident : Site} (h : RootedAt init ident) :
    init.unwrap.kind = .identifier ∨ init.unwrap.kind = .member ∨
      init.unwrap.kind = .subscript := by
  cases h with
  | name hkind => exact Or.inl hkind
  | access hkind => exact Or.inr hkind

theorem RootedAt.ne_call {init ident : Site} (h : RootedAt init ident) :
    init.unwrap.kind ≠ .call := by
  rcases h.kind with hkind | hkind | hkind <;> simp [hkind]

theorem RootedAt.isPrimitive {init ident : Site} (h : RootedAt init ident) :
    init.isPrimitive = false := by
  rcases h.kind with hkind | hkind | hkind <;> simp [Site.isPrimitive, hkind]

theorem chainRoot?_eq_some_iff {s ident : Site} : chainRoot? s = some ident ↔ RootedAt s ident := by
  constructor
  · intro h
    fun_induction chainRoot? s with
    | case1 s hkind => exact Option.some.inj h ▸ .name hkind
    | case2 s hkind object hobject ih => exact .access (Or.inl hkind) hobject (ih h)
    | case3 => contradiction
    | case4 s hkind object hobject ih => exact .access (Or.inr hkind) hobject (ih h)
    | case5 => contradiction
    | case6 => contradiction
  · intro h
    induction h with
    | name hkind => rw [chainRoot?_eq, hkind]
    | access hkind hobject _ ih =>
        rw [chainRoot?_eq]
        rcases hkind with hkind | hkind <;> simp [hkind, hobject, ih]

theorem RootedAt.unique {init ident ident' : Site} (h : RootedAt init ident)
    (h' : RootedAt init ident') : ident = ident' :=
  Option.some.inj ((chainRoot?_eq_some_iff.mpr h).symm.trans (chainRoot?_eq_some_iff.mpr h'))

/-- What an expression starts at is found through its wrapping. -/
theorem chainRoot?_unwrap (s : Site) : chainRoot? s.unwrap = chainRoot? s := by
  rw [chainRoot?_eq, chainRoot?_eq, Site.unwrap_unwrap]

/-! ### Safe hooks -/

/-- The hook is listed, and no entry before it has its name. -/
def FirstListed (hooks : List SafeHook) (hook : SafeHook) : Prop :=
  ∃ before after, hooks = before ++ hook :: after ∧ ∀ h ∈ before, h.name ≠ hook.name

theorem safeHook?_eq_some_iff {c : Convention} {name : String} {hook : SafeHook} :
    c.safeHook? name = some hook ↔ hook.name = name ∧ FirstListed c.safeHooks hook := by
  rw [Convention.safeHook?, List.find?_eq_some_iff_append]
  simp only [beq_iff_eq, Bool.not_eq_eq_eq_not, Bool.not_true, beq_eq_false_iff_ne]
  constructor
  · rintro ⟨rfl, hfirst⟩
    exact ⟨rfl, hfirst⟩
  · rintro ⟨rfl, hfirst⟩
    exact ⟨rfl, hfirst⟩

/-- The initializer is a call of a function of this name. -/
def Calls (source : String) (init : Site) (name : String) : Prop :=
  init.unwrap.kind = .call ∧ (init.unwrap.field? .function).bind (·.calleeName? source) = some name

/-- The initializer calls the hook, and the pattern leads to a part of the result that is stable:
any part, or the one element that the hook says. -/
structure Yields (source : String) (hook : SafeHook) (init : Site) (pattern : List PatternStep) :
    Prop where
  calls : Calls source init hook.name
  element : ∀ i, hook.index = some i → pattern.head? = some (.index i)

namespace Classifier

variable {c : Classifier} {b b' last : BindingId} {binding : Binding} {init ident : Site}
  {pattern : List PatternStep} {follow : BindingId → Bool} {reason : StableReason}

/-- The initializer calls a safe hook, and the first entry for it makes the part of the result
stable. -/
def IsSafeCall (c : Classifier) (init : Site) (pattern : List PatternStep) : Prop :=
  ∃ hook, FirstListed c.convention.safeHooks hook ∧ Yields c.source hook init pattern

theorem safeResult_iff {name : String} :
    c.safeResult name pattern = true ↔
      ∃ hook, hook.name = name ∧ FirstListed c.convention.safeHooks hook ∧
        ∀ i, hook.index = some i → pattern.head? = some (.index i) := by
  simp only [safeResult, Option.any_eq_true, safeHook?_eq_some_iff, Option.all_eq_true,
    decide_eq_true_eq, and_assoc]

theorem isSafeCall_iff {name : String} (h : Calls c.source init name) :
    c.IsSafeCall init pattern ↔ c.safeResult name pattern = true := by
  rw [safeResult_iff]
  constructor
  · rintro ⟨hook, hfirst, hcalls, helement⟩
    exact ⟨hook, Option.some.inj (hcalls.2.symm.trans h.2), hfirst, helement⟩
  · rintro ⟨hook, rfl, hfirst, helement⟩
    exact ⟨hook, hfirst, h, helement⟩

/-! ### Variables of the render function -/

/-- The binding is declared in the render function or in a scope nested in it. -/
def RenderScoped (c : Classifier) (b : BindingId) : Prop :=
  ∃ render binding, c.renderScope = some render ∧ c.graph.bindings[b]? = some binding ∧
    render ∈ c.graph.ancestors binding.scope

theorem isRenderScoped_iff : c.isRenderScoped b = true ↔ c.RenderScoped b := by
  simp only [isRenderScoped, Option.any_eq_true, Graph.declaredWithin, Graph.isWithin_iff_mem,
    RenderScoped]
  constructor
  · rintro ⟨render, hrender, binding, hbinding, hmem⟩
    exact ⟨render, binding, hrender, hbinding, hmem⟩
  · rintro ⟨render, binding, hrender, hbinding, hmem⟩
    exact ⟨render, hrender, binding, hbinding, hmem⟩

/-- `b` is a variable of the render function, declared with an initializer. -/
structure Holds (c : Classifier) (b : BindingId) (binding : Binding) (init : Site) : Prop where
  inside : c.RenderScoped b
  found : c.graph.bindings[b]? = some binding
  keyword : ∃ k, binding.kind = .variable k
  initialized : binding.init = some init

/-- `b` is a variable of the render function that holds a stable part of the result of a safe
hook. -/
def IsSafeResult (c : Classifier) (b : BindingId) : Prop :=
  ∃ binding init, c.Holds b binding init ∧ c.IsSafeCall init binding.pattern

/-- `b` is a variable of the render function whose initializer starts at a name for `b'`. -/
def Aliases (c : Classifier) (b b' : BindingId) : Prop :=
  ∃ binding init, c.Holds b binding init ∧
    ∃ ident, RootedAt init ident ∧ c.graph.resolvedAt? ident = some b'

/-- `k` aliases lead from the first binding to the second. -/
inductive Chain (c : Classifier) : Nat → BindingId → BindingId → Prop
  | here (b : BindingId) : Chain c 0 b b
  | step {k : Nat} {b b' last : BindingId} (h : c.Aliases b b') (hchain : Chain c k b' last) :
      Chain c (k + 1) b last

/-- Why a variable keeps its identity on its own account: what its initializer is, and which part
of it the pattern takes. -/
inductive OwnReason (c : Classifier) (binding : Binding) (init : Site) : StableReason → Prop
  | constantLiteral (hconst : binding.kind = .variable .constVar) (hpattern : binding.pattern = [])
      (hprimitive : init.isPrimitive = true) : OwnReason c binding init .constantLiteral
  | refContainer (hcalls : Calls c.source init "useRef") (hpattern : binding.pattern = [])
      (hunlisted : ¬ c.IsSafeCall init binding.pattern) : OwnReason c binding init .refContainer
  | stateSetter {name : String} (hcalls : Calls c.source init name) (hname : name ∈ stateHooks)
      (hpattern : binding.pattern = [.index 1]) (hunlisted : ¬ c.IsSafeCall init binding.pattern) :
      OwnReason c binding init .stateSetter
  | memoized {name : String} (hcalls : Calls c.source init name)
      (hname : name = "useMemo" ∨ name = "useCallback") (hpattern : binding.pattern = [])
      (hempty : hasEmptyDependencies init.unwrap = true)
      (hunlisted : ¬ c.IsSafeCall init binding.pattern) : OwnReason c binding init .memoized

/-! ### What a value says -/

-- A value is a call, starts at a name, or is neither; only the second asks about other bindings.

theorem ofValue_of_call (hcall : init.unwrap.kind = .call) :
    c.ofValue follow binding init.unwrap = c.resultStability init.unwrap binding.pattern := by
  have hfresh : init.unwrap.construction? = none := by
    rw [Site.construction?_eq, Site.unwrap_unwrap, hcall]
  have hprimitive : init.unwrap.isPrimitive = false := by
    simp [Site.isPrimitive, Site.unwrap_unwrap, hcall]
  simp [ofValue, hfresh, hprimitive, hcall]

theorem ofValue_of_rooted (h : RootedAt init ident) :
    c.ofValue follow binding init.unwrap =
      if (c.graph.resolvedAt? ident).any follow then .stable .safeHook else .reactive := by
  have halias : c.aliasOf? init.unwrap = c.graph.resolvedAt? ident := by
    rw [aliasOf?, chainRoot?_unwrap, chainRoot?_eq_some_iff.mpr h, Option.bind_some]
  have hfresh : init.unwrap.construction? = none := by
    rw [Site.construction?_eq, Site.unwrap_unwrap]
    rcases h.kind with hkind | hkind | hkind <;> rw [hkind]
  have hprimitive : init.unwrap.isPrimitive = false :=
    (Site.isPrimitive_unwrap init).trans h.isPrimitive
  simp [ofValue, hfresh, hprimitive, h.ne_call, halias]

/-- A literal builds nothing. -/
theorem construction?_of_isPrimitive {s : Site} (h : s.isPrimitive = true) :
    s.construction? = none := by
  rw [Site.construction?_eq]
  revert h
  unfold Site.isPrimitive
  dsimp only
  cases s.unwrap.kind <;> simp

theorem ofValue_of_other (hcall : init.unwrap.kind ≠ .call)
    (hroot : ∀ ident, ¬ RootedAt init ident) :
    c.ofValue follow binding init.unwrap =
      if binding.kind = .variable .constVar ∧ binding.pattern = [] ∧ init.isPrimitive = true then
        .stable .constantLiteral
      else .reactive := by
  have halias : c.aliasOf? init.unwrap = none := by
    rw [aliasOf?, chainRoot?_unwrap, Option.bind_eq_none_iff]
    intro ident hident
    exact absurd (chainRoot?_eq_some_iff.mp hident) (hroot ident)
  have hprimitive := Site.isPrimitive_unwrap init
  unfold ofValue
  rw [hprimitive, halias]
  by_cases hp : init.isPrimitive = true
  · have hfresh : init.unwrap.construction? = none :=
      construction?_of_isPrimitive (hprimitive.trans hp)
    simp [hfresh, hp, hcall, Binding.isConst, and_comm]
  · simp [hp, hcall]

/-! ### Stable results -/

theorem OwnReason.ne_safeHook (h : c.OwnReason binding init reason) : reason ≠ .safeHook := by
  cases h <;> nofun

/-- A variable that is stable on its own account holds a literal, or a call of a hook by name that
is not listed as safe. -/
theorem OwnReason.value (h : c.OwnReason binding init reason) : init.isPrimitive = true ∨
    (∃ name, Calls c.source init name) ∧ ¬ c.IsSafeCall init binding.pattern := by
  cases h with
  | constantLiteral _ _ hprimitive => exact Or.inl hprimitive
  | refContainer hcalls _ hunlisted => exact Or.inr ⟨⟨_, hcalls⟩, hunlisted⟩
  | stateSetter hcalls _ _ hunlisted => exact Or.inr ⟨⟨_, hcalls⟩, hunlisted⟩
  | memoized hcalls _ _ _ hunlisted => exact Or.inr ⟨⟨_, hcalls⟩, hunlisted⟩

theorem OwnReason.value_of_call (h : c.OwnReason binding init reason)
    (hcall : init.unwrap.kind = .call) :
    (∃ name, Calls c.source init name) ∧ ¬ c.IsSafeCall init binding.pattern := by
  refine h.value.resolve_left fun hprimitive => ?_
  simp [Site.isPrimitive, hcall] at hprimitive

/-- The built-in hooks are told apart by their names. -/
theorem ownReason_iff {name : String} (hcalls : Calls c.source init name)
    (hunlisted : ¬ c.IsSafeCall init binding.pattern) :
    c.OwnReason binding init reason ↔
      (name = "useRef" ∧ binding.pattern = []) ∧ reason = .refContainer ∨
      (name ∈ stateHooks ∧ binding.pattern = [.index 1]) ∧ reason = .stateSetter ∨
      ((name = "useMemo" ∨ name = "useCallback") ∧ binding.pattern = [] ∧
        hasEmptyDependencies init.unwrap = true) ∧ reason = .memoized := by
  have hunique : ∀ name', Calls c.source init name' → name = name' := fun name' h =>
    Option.some.inj (hcalls.2.symm.trans h.2)
  constructor
  · intro h
    cases h with
    | constantLiteral _ _ hprimitive => simp [Site.isPrimitive, hcalls.1] at hprimitive
    | refContainer h hpattern => exact Or.inl ⟨⟨hunique _ h, hpattern⟩, rfl⟩
    | stateSetter h hname hpattern =>
        exact Or.inr (Or.inl ⟨⟨hunique _ h ▸ hname, hpattern⟩, rfl⟩)
    | memoized h hname hpattern hempty =>
        exact Or.inr (Or.inr ⟨⟨hunique _ h ▸ hname, hpattern, hempty⟩, rfl⟩)
  · rintro (⟨⟨rfl, hpattern⟩, rfl⟩ | ⟨⟨hname, hpattern⟩, rfl⟩ | ⟨⟨hname, hpattern, hempty⟩, rfl⟩)
    · exact .refContainer hcalls hpattern hunlisted
    · exact .stateSetter hcalls hname hpattern hunlisted
    · exact .memoized hcalls hname hpattern hempty hunlisted

theorem resultStability_eq_stable_iff (hcall : init.unwrap.kind = .call) :
    c.resultStability init.unwrap binding.pattern = .stable reason ↔
      c.OwnReason binding init reason ∨ reason = .safeHook ∧ c.IsSafeCall init binding.pattern := by
  unfold resultStability
  cases hname : (init.unwrap.field? .function).bind (·.calleeName? c.source) with
  | none =>
      -- A call of something without a name is not one of a hook.
      have hcalls : ∀ name, ¬ Calls c.source init name := fun name h => by
        rw [Calls, hname] at h
        exact absurd h.2 (by simp)
      refine iff_of_false nofun ?_
      rintro (h | ⟨-, hook, -, hyields⟩)
      · obtain ⟨⟨name, h⟩, -⟩ := h.value_of_call hcall
        exact hcalls name h
      · exact hcalls _ hyields.calls
  | some name =>
      have hcalls : Calls c.source init name := ⟨hcall, hname⟩
      by_cases hsafe : c.IsSafeCall init binding.pattern
      · have hown : ¬ c.OwnReason binding init reason := fun h => (h.value_of_call hcall).2 hsafe
        simp only [(isSafeCall_iff hcalls).mp hsafe, if_true, Stability.stable.injEq, hown, hsafe,
          and_true, false_or, eq_comm]
      · have hresult : c.safeResult name binding.pattern = false := by
          simpa using fun h => hsafe ((isSafeCall_iff hcalls).mpr h)
        simp only [ownReason_iff hcalls hsafe, hsafe, and_false, or_false, hresult]
        simp only [Bool.false_eq_true, if_false, List.contains_iff_mem]
        -- What is asked for in one branch excludes the others.
        split_ifs with href hstate hmemo <;> grind

/-- The initializer starts at a name for a binding that `follow` accepts. -/
def Passes (c : Classifier) (follow : BindingId → Bool) (init : Site) : Prop :=
  ∃ ident b', RootedAt init ident ∧ c.graph.resolvedAt? ident = some b' ∧ follow b' = true

theorem not_ownReason_of_rooted (h : RootedAt init ident) : ¬ c.OwnReason binding init reason := by
  intro hown
  rcases hown.value with hprimitive | ⟨⟨name, hcalls⟩, -⟩
  · exact absurd (hprimitive.symm.trans h.isPrimitive) (by simp)
  · exact h.ne_call hcalls.1

theorem ofValue_eq_stable_iff : c.ofValue follow binding init.unwrap = .stable reason ↔
    c.OwnReason binding init reason ∨
      reason = .safeHook ∧ (c.IsSafeCall init binding.pattern ∨ c.Passes follow init) := by
  by_cases hcall : init.unwrap.kind = .call
  · have hpasses : ¬ c.Passes follow init := fun ⟨_, _, hroot, _⟩ => hroot.ne_call hcall
    rw [ofValue_of_call hcall, resultStability_eq_stable_iff hcall]
    simp only [hpasses, or_false]
  by_cases hroot : ∃ ident, RootedAt init ident
  · obtain ⟨ident, hroot⟩ := hroot
    have hpasses : c.Passes follow init ↔ (c.graph.resolvedAt? ident).any follow = true := by
      rw [Option.any_eq_true]
      constructor
      · rintro ⟨ident', b', hroot', hb', hfollow⟩
        exact ⟨b', hroot.unique hroot' ▸ hb', hfollow⟩
      · rintro ⟨b', hb', hfollow⟩
        exact ⟨ident, b', hroot, hb', hfollow⟩
    have hown : ¬ c.OwnReason binding init reason := not_ownReason_of_rooted hroot
    have hsafe : ¬ c.IsSafeCall init binding.pattern := fun ⟨_, _, h⟩ => hroot.ne_call h.calls.1
    rw [ofValue_of_rooted hroot]
    simp only [hown, hsafe, hpasses, false_or]
    split_ifs with hany
    · simp only [Stability.stable.injEq, hany, and_true, eq_comm]
    · simp only [reduceCtorEq, hany, and_false]
  · have hpasses : ¬ c.Passes follow init := fun ⟨ident, _, h, _⟩ => hroot ⟨ident, h⟩
    have hsafe : ¬ c.IsSafeCall init binding.pattern := fun ⟨_, _, h⟩ => hcall h.calls.1
    rw [ofValue_of_other hcall fun ident h => hroot ⟨ident, h⟩]
    simp only [hpasses, hsafe, or_self, and_false, or_false]
    constructor
    · intro h
      split_ifs at h with hliteral
      injection h with h
      exact h ▸ .constantLiteral hliteral.1 hliteral.2.1 hliteral.2.2
    · intro h
      cases h with
      | constantLiteral hconst hpattern hprimitive => rw [if_pos ⟨hconst, hpattern, hprimitive⟩]
      | refContainer h => exact absurd h.1 hcall
      | stateSetter h => exact absurd h.1 hcall
      | memoized h => exact absurd h.1 hcall

/-! ### Classification -/

theorem Holds.value? (h : c.Holds b binding init) : binding.value? = some init.unwrap := by
  obtain ⟨k, hk⟩ := h.keyword
  simp [Binding.value?, hk, h.initialized]

/-- A variable is stable by the value it is declared with. -/
theorem classifyVia_eq_stable_iff : c.classifyVia follow b = .stable reason ↔
    ∃ binding init, c.Holds b binding init ∧
      c.ofValue follow binding init.unwrap = .stable reason := by
  constructor
  · intro h
    unfold classifyVia at h
    split at h
    · contradiction
    rename_i hscoped
    cases hfound : c.graph.bindings[b]? with
    | none => simp [hfound] at h
    | some binding =>
        cases hvalue : binding.value? with
        | none => simp [hfound, hvalue] at h
        | some value =>
            simp only [hfound, hvalue, Option.bind_some, Option.map_some, Option.getD_some] at h
            unfold Binding.value? at hvalue
            split at hvalue
            · rename_i k hk
              obtain ⟨init, hinit, rfl⟩ := Option.map_eq_some_iff.mp hvalue
              have hinside : c.RenderScoped b := isRenderScoped_iff.mp (by simpa using hscoped)
              exact ⟨binding, init, ⟨hinside, hfound, ⟨k, hk⟩, hinit⟩, h⟩
            · contradiction
  · rintro ⟨binding, init, hholds, hstable⟩
    simp [classifyVia, isRenderScoped_iff.mpr hholds.inside, hholds.found, hholds.value?, hstable]

theorem resultStability_ne_external {call : Site} :
    c.resultStability call pattern ≠ .external := by
  unfold resultStability
  split
  · nofun
  · split_ifs <;> nofun

theorem ofValue_ne_external {value : Site} : c.ofValue follow binding value ≠ .external := by
  unfold ofValue
  split_ifs
  case pos => nofun
  case pos => nofun
  case pos => exact resultStability_ne_external
  case pos => nofun
  case neg => nofun

theorem classifyVia_eq_external_iff :
    c.classifyVia follow b = .external ↔ ¬ c.RenderScoped b := by
  rw [← isRenderScoped_iff]
  unfold classifyVia
  split_ifs with hscoped
  · simpa using hscoped
  · refine iff_of_false ?_ (by simpa using hscoped)
    cases hresult : (c.graph.bindings[b]?).bind fun binding =>
        binding.value?.map (c.ofValue follow binding) with
    | none => nofun
    | some result =>
        obtain ⟨binding, -, hmap⟩ := Option.bind_eq_some_iff.mp hresult
        obtain ⟨value, -, rfl⟩ := Option.map_eq_some_iff.mp hmap
        exact ofValue_ne_external

theorem exists_classifyVia (c : Classifier) (limit : Nat) (b : BindingId) :
    ∃ follow, c.classifyWithin limit b = c.classifyVia follow b := by
  cases limit with
  | zero => exact ⟨_, c.classifyWithin_zero b⟩
  | succ limit => exact ⟨_, c.classifyWithin_succ limit b⟩

theorem classifyWithin_eq_external_iff {limit : Nat} :
    c.classifyWithin limit b = .external ↔ ¬ c.RenderScoped b := by
  obtain ⟨follow, hvia⟩ := c.exists_classifyVia limit b
  rw [hvia, classifyVia_eq_external_iff]

/-- No alias is followed for a reason other than a safe hook. -/
theorem classifyWithin_eq_stable_iff {limit : Nat} (hreason : reason ≠ .safeHook) :
    c.classifyWithin limit b = .stable reason ↔
      ∃ binding init, c.Holds b binding init ∧ c.OwnReason binding init reason := by
  obtain ⟨follow, hvia⟩ := c.exists_classifyVia limit b
  rw [hvia, classifyVia_eq_stable_iff]
  simp only [ofValue_eq_stable_iff, hreason, false_and, or_false]

theorem classifyVia_eq_safeHook_iff : c.classifyVia follow b = .stable .safeHook ↔
    c.IsSafeResult b ∨ ∃ b', c.Aliases b b' ∧ follow b' = true := by
  have hown : ∀ binding init, ¬ c.OwnReason binding init .safeHook := fun _ _ h =>
    h.ne_safeHook rfl
  rw [classifyVia_eq_stable_iff]
  simp only [ofValue_eq_stable_iff, hown, false_or, true_and]
  constructor
  · rintro ⟨binding, init, hholds, hsafe | ⟨ident, b', hroot, hb', hfollow⟩⟩
    · exact Or.inl ⟨binding, init, hholds, hsafe⟩
    · exact Or.inr ⟨b', ⟨binding, init, hholds, ident, hroot, hb'⟩, hfollow⟩
  · rintro (⟨binding, init, hholds, hsafe⟩ |
      ⟨b', ⟨binding, init, hholds, ident, hroot, hb'⟩, hfollow⟩)
    · exact ⟨binding, init, hholds, Or.inl hsafe⟩
    · exact ⟨binding, init, hholds, Or.inr ⟨ident, b', hroot, hb', hfollow⟩⟩

/-- A binding is the result of a safe hook when a chain leads to one that the limit allows. -/
theorem classifyWithin_eq_safeHook_iff {limit : Nat} :
    c.classifyWithin limit b = .stable .safeHook ↔
      ∃ k ≤ limit, ∃ last, c.Chain k b last ∧ c.IsSafeResult last := by
  induction limit generalizing b with
  | zero =>
      rw [classifyWithin_zero, classifyVia_eq_safeHook_iff]
      constructor
      · rintro (hsafe | ⟨_, _, hfollow⟩)
        · exact ⟨0, Nat.le_refl 0, b, .here b, hsafe⟩
        · contradiction
      · rintro ⟨k, hk, last, hchain, hsafe⟩
        cases hchain with
        | here => exact Or.inl hsafe
        | step => exact absurd hk (by simp)
  | succ limit ih =>
      rw [classifyWithin_succ, classifyVia_eq_safeHook_iff]
      simp only [decide_eq_true_eq, ih]
      constructor
      · rintro (hsafe | ⟨b', halias, k, hk, last, hchain, hsafe⟩)
        · exact ⟨0, Nat.zero_le _, b, .here b, hsafe⟩
        · exact ⟨k + 1, Nat.succ_le_succ hk, last, .step halias hchain, hsafe⟩
      · rintro ⟨k, hk, last, hchain, hsafe⟩
        cases hchain with
        | here => exact Or.inl hsafe
        | step halias hchain =>
            exact Or.inr ⟨_, halias, _, Nat.le_of_succ_le_succ hk, last, hchain, hsafe⟩

/-! ### Cycles -/

/-- The initializer of `b` starts at a name for `b'`, wherever the two are declared. -/
def Follows (c : Classifier) (b b' : BindingId) : Prop :=
  ∃ binding init ident, c.graph.bindings[b]? = some binding ∧ binding.init = some init ∧
    RootedAt init ident ∧ c.graph.resolvedAt? ident = some b'

/-- Following the initializers leads from `b` to a binding that leads to itself. -/
def RunsIntoCycle (c : Classifier) (b : BindingId) : Prop :=
  ∃ b', Relation.ReflTransGen c.Follows b b' ∧ Relation.TransGen c.Follows b' b'

theorem Aliases.follows (h : c.Aliases b b') : c.Follows b b' := by
  obtain ⟨binding, init, hholds, ident, hroot, hb'⟩ := h
  exact ⟨binding, init, ident, hholds.found, hholds.initialized, hroot, hb'⟩

theorem Follows.unique {b'' : BindingId} (h : c.Follows b b') (h' : c.Follows b b'') :
    b' = b'' := by
  obtain ⟨binding, init, ident, hfound, hinit, hroot, hb'⟩ := h
  obtain ⟨binding', init', ident', hfound', hinit', hroot', hb''⟩ := h'
  obtain rfl : binding = binding' := Option.some.inj (hfound.symm.trans hfound')
  obtain rfl : init = init' := Option.some.inj (hinit.symm.trans hinit')
  obtain rfl : ident = ident' := hroot.unique hroot'
  exact Option.some.inj (hb'.symm.trans hb'')

/-- There is always a next binding on the way into a cycle. -/
theorem RunsIntoCycle.follows (h : c.RunsIntoCycle b) :
    ∃ b', c.Follows b b' ∧ c.RunsIntoCycle b' := by
  obtain ⟨turn, hway, hcycle⟩ := h
  rcases Relation.ReflTransGen.cases_head hway with rfl | ⟨b', hstep, hrest⟩
  · obtain ⟨b', hstep, hback⟩ := Relation.TransGen.head'_iff.mp hcycle
    exact ⟨b', hstep, b, hback, hcycle⟩
  · exact ⟨b', hstep, turn, hrest, hcycle⟩

/-- A chain from a binding that runs into a cycle stays on the way into it. -/
theorem Chain.runsIntoCycle {k : Nat} (hchain : c.Chain k b last) (h : c.RunsIntoCycle b) :
    c.RunsIntoCycle last := by
  induction hchain with
  | here => exact h
  | step halias _ ih =>
      obtain ⟨next, hstep, hnext⟩ := h.follows
      exact ih (halias.follows.unique hstep ▸ hnext)

theorem RunsIntoCycle.rooted (h : c.RunsIntoCycle b) (hholds : c.Holds b binding init) :
    ∃ ident, RootedAt init ident := by
  obtain ⟨-, ⟨binding', init', ident, hfound, hinit, hroot, -⟩, -⟩ := h.follows
  obtain rfl : binding = binding' := Option.some.inj (hholds.found.symm.trans hfound)
  obtain rfl : init = init' := Option.some.inj (hholds.initialized.symm.trans hinit)
  exact ⟨ident, hroot⟩

/-- A call is no alias, so what runs into a cycle never meets one. -/
theorem classifyWithin_of_runsIntoCycle {limit : Nat} (hinside : c.RenderScoped b)
    (h : c.RunsIntoCycle b) : c.classifyWithin limit b = .reactive := by
  cases hclass : c.classifyWithin limit b with
  | reactive => rfl
  | external => exact absurd hinside (classifyWithin_eq_external_iff.mp hclass)
  | stable reason =>
      exfalso
      by_cases hreason : reason = .safeHook
      · subst hreason
        obtain ⟨k, -, last, hchain, binding, init, hholds, hook, -, hyields⟩ :=
          classifyWithin_eq_safeHook_iff.mp hclass
        obtain ⟨ident, hroot⟩ := (hchain.runsIntoCycle h).rooted hholds
        exact hroot.ne_call hyields.calls.1
      · obtain ⟨binding, init, hholds, hown⟩ := (classifyWithin_eq_stable_iff hreason).mp hclass
        obtain ⟨ident, hroot⟩ := h.rooted hholds
        exact not_ownReason_of_rooted hroot hown

/-- How a binding is classified, and through which aliases.  It is external when it is declared
outside of the render function.  It is the result of a safe hook when at most sixteen aliases lead
to a variable that holds a stable part of one.  Every other reason is found in its own initializer
and pattern; in the graph of a unit the place of the initializer says the keyword too.  What runs
into a cycle is reactive. -/
theorem classify_through_aliases (c : Classifier) (b : BindingId) :
    (c.classify b = .external ↔ ¬ c.RenderScoped b) ∧
    (c.classify b = .stable .safeHook ↔
      ∃ k ≤ 16, ∃ last, c.Chain k b last ∧ c.IsSafeResult last) ∧
    (∀ reason, reason ≠ .safeHook → (c.classify b = .stable reason ↔
      ∃ binding init, c.Holds b binding init ∧ c.OwnReason binding init reason)) ∧
    (∀ root, c.graph = Graph.build c.source root → ∀ binding init,
      c.graph.bindings[b]? = some binding → binding.init = some init →
        binding.kind = .variable (keywordAt c.source init)) ∧
    (c.RenderScoped b → c.RunsIntoCycle b → c.classify b = .reactive) := by
  refine ⟨classifyWithin_eq_external_iff, classifyWithin_eq_safeHook_iff,
    fun _ hreason => classifyWithin_eq_stable_iff hreason, ?_, classifyWithin_of_runsIntoCycle⟩
  intro root hgraph binding init hfound hinit
  exact Graph.kind_of_initializer (hgraph ▸ hfound) hinit

/-! ### An instance -/

def aliasSource : String :=
  "() => \x7b const a = useForm(), [b] = (a.x), n = 1; var p = q, q = p \x7d"

/-- The tree of `aliasSource`. -/
def aliasTree : Tree :=
  .node ⟨0, "program", .other, true, false, [], 0, 67⟩
    [.node ⟨1, "arrow_function", .arrowFunction, true, false, [], 0, 67⟩
      [.node ⟨2, "formal_parameters", .other, true, false, [.parameters], 0, 2⟩ [],
      .node ⟨3, "statement_block", .statementBlock, true, false, [.body], 6, 67⟩
        [.node ⟨4, "lexical_declaration", .lexicalDeclaration, true, false, [], 8, 48⟩
          [.node ⟨5, "const", .other, false, false, [.kind], 8, 13⟩ [],
          .node ⟨6, "variable_declarator", .declarator, true, false, [], 14, 27⟩
            [.node ⟨7, "identifier", .identifier, true, false, [.name], 14, 15⟩ [],
            .node ⟨8, "call_expression", .call, true, false, [.value], 18, 27⟩
              [.node ⟨9, "identifier", .identifier, true, false, [.function], 18, 25⟩ [],
              .node ⟨10, "arguments", .arguments, true, false, [.arguments], 25, 27⟩ []]],
          .node ⟨11, "variable_declarator", .declarator, true, false, [], 29, 40⟩
            [.node ⟨12, "array_pattern", .arrayPattern, true, false, [.name], 29, 32⟩
              [.node ⟨13, "identifier", .identifier, true, false, [], 30, 31⟩ []],
            .node ⟨14, "parenthesized_expression", .parenthesized, true, false, [.value], 35, 40⟩
              [.node ⟨15, "member_expression", .member, true, false, [], 36, 39⟩
                [.node ⟨16, "identifier", .identifier, true, false, [.object], 36, 37⟩ [],
                .node ⟨17, "property_identifier", .other, true, false, [.property], 38, 39⟩ []]]],
          .node ⟨18, "variable_declarator", .declarator, true, false, [], 42, 47⟩
            [.node ⟨19, "identifier", .identifier, true, false, [.name], 42, 43⟩ [],
            .node ⟨20, "number", .number, true, false, [.value], 46, 47⟩ []]],
        .node ⟨21, "variable_declaration", .variableDeclaration, true, false, [], 49, 65⟩
          [.node ⟨22, "variable_declarator", .declarator, true, false, [], 53, 58⟩
            [.node ⟨23, "identifier", .identifier, true, false, [.name], 53, 54⟩ [],
            .node ⟨24, "identifier", .identifier, true, false, [.value], 57, 58⟩ []],
          .node ⟨25, "variable_declarator", .declarator, true, false, [], 60, 65⟩
            [.node ⟨26, "identifier", .identifier, true, false, [.name], 60, 61⟩ [],
            .node ⟨27, "identifier", .identifier, true, false, [.value], 64, 65⟩ []]]]]]

/-- The classifier of `aliasSource`, where the result of `useForm` is stable. -/
def aliasClassifier : Classifier :=
  .ofUnit aliasSource aliasTree (.make [] none [⟨"useForm", none⟩]) (some 1)

def aliasBinding (k : Fin 5) : Binding :=
  (aliasClassifier.graph.bindings[k.val]?).get (by revert k; decide +kernel)

def aliasInit (k : Fin 5) : Site := (aliasBinding k).init.get (by revert k; decide +kernel)

theorem alias_declared : ∀ k : Fin 5, aliasClassifier.isRenderScoped k.val = true ∧
    (aliasBinding k).kind = .variable (if k.val < 3 then .constVar else .varVar) := by
  decide +kernel

/-- The first variable holds a call, the third a literal, and the others are aliases. -/
theorem alias_values :
    ((aliasInit 0).unwrap.kind = .call ∧
      ((aliasInit 0).unwrap.field? .function).bind (·.calleeName? aliasSource) = some "useForm" ∧
      aliasClassifier.safeResult "useForm" (aliasBinding 0).pattern = true) ∧
    ((aliasBinding 2).pattern = [] ∧ (aliasInit 2).isPrimitive = true) ∧
    aliasClassifier.aliasOf? (aliasInit 1) = some 0 ∧
    aliasClassifier.aliasOf? (aliasInit 3) = some 4 ∧
    aliasClassifier.aliasOf? (aliasInit 4) = some 3 := by
  decide +kernel

theorem alias_holds (k : Fin 5) :
    aliasClassifier.Holds k.val (aliasBinding k) (aliasInit k) where
  inside := isRenderScoped_iff.mp (alias_declared k).1
  found := (Option.some_get _).symm
  keyword := ⟨_, (alias_declared k).2⟩
  initialized := (Option.some_get _).symm

theorem alias_aliases {k : Fin 5} (h : aliasClassifier.aliasOf? (aliasInit k) = some b') :
    aliasClassifier.Aliases k.val b' := by
  obtain ⟨ident, hroot, hb'⟩ := Option.bind_eq_some_iff.mp h
  exact ⟨_, _, alias_holds k, ident, chainRoot?_eq_some_iff.mp hroot, hb'⟩

theorem classify_through_aliases_instance :
    (aliasClassifier.Chain 1 1 0 ∧ aliasClassifier.classify 1 = .stable .safeHook) ∧
    aliasClassifier.classify 2 = .stable .constantLiteral ∧
    (aliasBinding 2).kind = .variable (keywordAt aliasSource (aliasInit 2)) ∧
    (aliasClassifier.RunsIntoCycle 3 ∧ aliasClassifier.classify 3 = .reactive) := by
  obtain ⟨⟨hcall, hname, hresult⟩, ⟨hpattern, hprimitive⟩, hb, hp, hq⟩ := alias_values
  have hchain : aliasClassifier.Chain 1 1 0 := .step (alias_aliases (k := 1) hb) (.here 0)
  have hsafe : aliasClassifier.IsSafeResult 0 :=
    ⟨_, _, alias_holds 0, (isSafeCall_iff ⟨hcall, hname⟩).mpr hresult⟩
  have hcycle : aliasClassifier.RunsIntoCycle 3 :=
    ⟨3, .refl, .head (alias_aliases (k := 3) hp).follows
      (.single (alias_aliases (k := 4) hq).follows)⟩
  obtain ⟨-, hsafeHook, -⟩ := classify_through_aliases aliasClassifier 1
  obtain ⟨-, -, hown, hkeyword, -⟩ := classify_through_aliases aliasClassifier 2
  obtain ⟨-, -, -, -, hreactive⟩ := classify_through_aliases aliasClassifier 3
  refine ⟨⟨hchain, hsafeHook.mpr ⟨1, by decide, 0, hchain, hsafe⟩⟩, ?_, ?_, hcycle,
    hreactive (alias_holds 3).inside hcycle⟩
  · exact (hown .constantLiteral (by decide)).mpr ⟨_, _, alias_holds 2,
      .constantLiteral (alias_declared 2).2 hpattern hprimitive⟩
  · exact hkeyword aliasTree rfl _ _ (alias_holds 2).found (alias_holds 2).initialized

end Classifier

end HookLint.Dependency

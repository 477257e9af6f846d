/-
Lists of safe hooks.

A hook may be listed more than once, and of its entries only the first counts.  So two
lists classify every binding alike exactly when they have the same first entries
(`classify_alike_iff`).  Reordering a list is harmless exactly when the entries for one
name agree; otherwise some order hides an entry that another order brings forward.

The converse directions need a program to tell two lists apart.  `probe` is a render
function with one variable, which takes a given part of the result of a given hook.
-/
import HookLint.Proofs.Aliases
import HookLint.Proofs.Slices

namespace HookLint.Dependency

open HookLint.Syntax HookLint.Scope HookLint.Hook

/-! ### First entries -/

variable {hooks hooks' : List SafeHook} {hook hook' : SafeHook}

theorem firstListed_iff :
    FirstListed hooks hook ↔ hooks.find? (·.name == hook.name) = some hook := by
  have h := @safeHook?_eq_some_iff ⟨[], none, hooks⟩ hook.name hook
  exact ⟨fun hfirst => h.mpr ⟨rfl, hfirst⟩, fun hfind => (h.mp hfind).2⟩

theorem FirstListed.mem (h : FirstListed hooks hook) : hook ∈ hooks :=
  List.mem_of_find?_eq_some (firstListed_iff.mp h)

theorem FirstListed.unique (h : FirstListed hooks hook) (h' : FirstListed hooks hook')
    (hname : hook.name = hook'.name) : hook = hook' := by
  rw [firstListed_iff, hname] at h
  exact Option.some.inj (h.symm.trans (firstListed_iff.mp h'))

/-- Every listed name has a first entry. -/
theorem exists_firstListed (h : hook ∈ hooks) :
    ∃ first, FirstListed hooks first ∧ first.name = hook.name := by
  have hsome : (hooks.find? (·.name == hook.name)).isSome = true :=
    List.find?_isSome.mpr ⟨hook, h, by simp⟩
  obtain ⟨first, hfirst⟩ := Option.isSome_iff_exists.mp hsome
  have hname : first.name = hook.name := by simpa using List.find?_some hfirst
  exact ⟨first, firstListed_iff.mpr (hname ▸ hfirst), hname⟩

theorem firstListed_cons : FirstListed (hook :: hooks) hook := ⟨[], hooks, rfl, nofun⟩

theorem eq_of_name_of_index (hname : hook.name = hook'.name) (hindex : hook.index = hook'.index) :
    hook = hook' := by
  cases hook
  cases hook'
  simp_all

/-- An entry with this index makes the part stable that the pattern leads to. -/
def Allows (index : Option Nat) (pattern : List PatternStep) : Prop :=
  ∀ i, index = some i → pattern.head? = some (.index i)

/-- One index allows all that another does when it is that one or leaves the element open. -/
theorem forall_allows_iff {index index' : Option Nat} :
    (∀ pattern, Allows index pattern → Allows index' pattern) ↔
      index' = none ∨ index' = index := by
  constructor
  · intro h
    cases index with
    | none =>
        have hall : Allows index' [] := h [] nofun
        cases index' with
        | none => exact Or.inl rfl
        | some j => exact absurd (hall j rfl) (by simp)
    | some i =>
        have hall : Allows index' [.index i] := h [.index i] (by simp [Allows])
        cases index' with
        | none => exact Or.inl rfl
        | some j => simpa [Allows, eq_comm] using hall
  · rintro (rfl | rfl) pattern hallows
    · exact nofun
    · exact hallows

/-- Some part is allowed by every index. -/
theorem exists_allows (index : Option Nat) : ∃ pattern, Allows index pattern := by
  cases index with
  | none => exact ⟨[], nofun⟩
  | some i => exact ⟨[.index i], by simp [Allows]⟩

/-- The entries for one name agree. -/
def Agree (hooks : List SafeHook) : Prop :=
  ∀ h ∈ hooks, ∀ h' ∈ hooks, h.name = h'.name → h.index = h'.index

/-- When the entries for a name agree, each of them might be the first. -/
theorem Agree.firstListed_iff_mem (h : Agree hooks) : FirstListed hooks hook ↔ hook ∈ hooks := by
  refine ⟨FirstListed.mem, fun hmem => ?_⟩
  obtain ⟨first, hfirst, hname⟩ := exists_firstListed hmem
  have hindex : first.index = hook.index := h first hfirst.mem hook hmem hname
  exact eq_of_name_of_index hname hindex ▸ hfirst

theorem Agree.perm (h : Agree hooks) (hperm : hooks'.Perm hooks) : Agree hooks' :=
  fun x hx y hy => h x (hperm.mem_iff.mp hx) y (hperm.mem_iff.mp hy)

/-- All orders have the same first entries when the entries for each name agree, and only then. -/
theorem forall_perm_firstListed_iff :
    (∀ hooks', hooks'.Perm hooks → ∀ hook, FirstListed hooks' hook ↔ FirstListed hooks hook) ↔
      Agree hooks := by
  constructor
  · intro h x hx y hy hname
    -- Either entry can be put in front.
    have hfront : ∀ z ∈ hooks, FirstListed hooks z := fun z hz =>
      (h _ (List.perm_cons_erase hz).symm z).mp firstListed_cons
    rw [(hfront x hx).unique (hfront y hy) hname]
  · intro h hooks' hperm hook
    rw [(h.perm hperm).firstListed_iff_mem, h.firstListed_iff_mem, hperm.mem_iff]

namespace Classifier

variable {c : Classifier} {b : BindingId} {binding : Binding} {init : Site}
  {pattern : List PatternStep}

/-- The classifier with another list of safe hooks. -/
def withSafeHooks (c : Classifier) (hooks : List SafeHook) : Classifier :=
  { c with convention := { c.convention with safeHooks := hooks } }

@[simp] theorem source_withSafeHooks : (c.withSafeHooks hooks).source = c.source := rfl

@[simp] theorem safeHooks_withSafeHooks :
    (c.withSafeHooks hooks).convention.safeHooks = hooks := rfl

/-! ### The same first entries -/

theorem safeResult_withSafeHooks (h : ∀ hook, FirstListed hooks' hook ↔ FirstListed hooks hook)
    (name : String) : (c.withSafeHooks hooks').safeResult name pattern =
      (c.withSafeHooks hooks).safeResult name pattern := by
  rw [Bool.eq_iff_iff, safeResult_iff, safeResult_iff]
  simp only [safeHooks_withSafeHooks, h]

theorem classifyVia_withSafeHooks (h : ∀ hook, FirstListed hooks' hook ↔ FirstListed hooks hook)
    (follow : BindingId → Bool) : (c.withSafeHooks hooks').classifyVia follow b =
      (c.withSafeHooks hooks).classifyVia follow b := by
  have hresult : ∀ call pattern, (c.withSafeHooks hooks').resultStability call pattern =
      (c.withSafeHooks hooks).resultStability call pattern := by
    intro call pattern
    unfold resultStability
    simp only [source_withSafeHooks, safeResult_withSafeHooks h]
  have hvalue :
      (c.withSafeHooks hooks').ofValue follow = (c.withSafeHooks hooks).ofValue follow := by
    funext binding init
    unfold ofValue
    rw [hresult]
    rfl
  unfold classifyVia
  rw [hvalue]
  rfl

/-- Of a list only the first entries count. -/
theorem classifyWithin_withSafeHooks
    (h : ∀ hook, FirstListed hooks' hook ↔ FirstListed hooks hook) (limit : Nat)
    (b : BindingId) : (c.withSafeHooks hooks').classifyWithin limit b =
      (c.withSafeHooks hooks).classifyWithin limit b := by
  induction limit generalizing b with
  | zero => rw [classifyWithin_zero, classifyWithin_zero, classifyVia_withSafeHooks h]
  | succ limit ih =>
      rw [classifyWithin_succ, classifyWithin_succ, classifyVia_withSafeHooks h]
      simp only [ih]

/-! ### A program that asks for one part of a result -/

/-- A call of `name`, in the text `name`. -/
def probeCall (name : String) : Site :=
  .root (.node ⟨0, "call_expression", .call, true, false, [], 0, Text.byteLength name⟩
    [.node ⟨1, "identifier", .identifier, true, false, [.function], 0, Text.byteLength name⟩ []])

def probeCallee (name : String) : Site := (probeCall name).children.getD 0 default

/-- The variable that holds the part of the call's result which the pattern leads to. -/
def probeBinding (name : String) (pattern : List PatternStep) : Binding :=
  { name := "x", kind := .variable .constVar, scope := 0, ident := probeCall name,
    declaration := probeCall name, init := some (probeCall name), pattern }

/-- A render function with this variable alone. -/
def probe (name : String) (pattern : List PatternStep) : Classifier where
  graph := { Graph.empty with
    scopes := #[⟨.function, none, probeCall name, [("x", 0)], []⟩]
    bindings := #[probeBinding name pattern] }
  source := name
  convention := .default
  renderScope := some 0

theorem calls_probeCall (name : String) : Calls name (probeCall name) name := by
  have hcall : (probeCall name).unwrap = probeCall name := by
    rw [Site.unwrap]
    rfl
  have hcallee : (probeCall name).field? .function = some (probeCallee name) := rfl
  have hname : (probeCallee name).calleeName? name = some name := by
    have hunwrap : (probeCallee name).unwrap = probeCallee name := by
      rw [Site.unwrap]
      rfl
    have htext : (probeCallee name).text name = name := by
      show (Text.slice? name 0 (Text.byteLength name)).getD "" = name
      rw [Text.slice?_self, Option.getD_some]
    unfold Site.calleeName?
    rw [hunwrap]
    show some ((probeCallee name).text name) = some name
    rw [htext]
  refine ⟨by rw [hcall]; rfl, ?_⟩
  rw [hcall, hcallee, Option.bind_some, hname]

theorem holds_probe (hooks : List SafeHook) (name : String) (pattern : List PatternStep) :
    ((probe name pattern).withSafeHooks hooks).Holds 0 (probeBinding name pattern)
      (probeCall name) where
  inside := by
    refine ⟨0, probeBinding name pattern, rfl, rfl, ?_⟩
    show 0 ∈ Graph.ancestors _ 0
    rw [Graph.ancestors_of_no_parent rfl]
    exact List.mem_singleton_self 0
  found := rfl
  keyword := ⟨.constVar, rfl⟩
  initialized := rfl

theorem Holds.unique {binding' : Binding} {init' : Site} (h : c.Holds b binding init)
    (h' : c.Holds b binding' init') : binding = binding' ∧ init = init' := by
  obtain rfl : binding = binding' := Option.some.inj (h.found.symm.trans h'.found)
  exact ⟨rfl, Option.some.inj (h.initialized.symm.trans h'.initialized)⟩

/-- The variable is the result of a safe hook when the first entry for the hook allows it. -/
theorem classify_probe {name : String} :
    ((probe name pattern).withSafeHooks hooks).classify 0 = .stable .safeHook ↔
      ∃ first, first.name = name ∧ FirstListed hooks first ∧ Allows first.index pattern := by
  have hholds := holds_probe hooks name pattern
  have hcalls : Calls ((probe name pattern).withSafeHooks hooks).source (probeCall name) name :=
    calls_probeCall name
  obtain ⟨follow, hclass⟩ := exists_classifyVia
    ((probe name pattern).withSafeHooks hooks) aliasLimit 0
  rw [classify, hclass, classifyVia_eq_safeHook_iff]
  refine Iff.trans ?_ ((isSafeCall_iff hcalls).trans safeResult_iff)
  constructor
  · rintro (⟨binding, init, hheld, hsafe⟩ | ⟨b', ⟨binding, init, hheld, ident, hroot, -⟩, -⟩)
    · obtain ⟨rfl, rfl⟩ := hheld.unique hholds
      exact hsafe
    · obtain ⟨rfl, rfl⟩ := hheld.unique hholds
      exact absurd hcalls.1 hroot.ne_call
  · exact fun hsafe => Or.inl ⟨_, _, hholds, hsafe⟩

theorem classify_probe_of_firstListed (h : FirstListed hooks hook) :
    ((probe hook.name pattern).withSafeHooks hooks).classify 0 = .stable .safeHook ↔
      Allows hook.index pattern := by
  rw [classify_probe]
  constructor
  · rintro ⟨first, hname, hfirst, hallows⟩
    exact hfirst.unique h hname ▸ hallows
  · exact fun hallows => ⟨hook, rfl, h, hallows⟩

/-! ### Lists that classify alike -/

theorem firstListed_of_alike (h : ∀ c b, (withSafeHooks c hooks').classify b =
    (withSafeHooks c hooks).classify b) (hlisted : FirstListed hooks' hook) :
    FirstListed hooks hook := by
  have hprobe : ∀ pattern, Allows hook.index pattern ↔
      ((probe hook.name pattern).withSafeHooks hooks).classify 0 = .stable .safeHook := by
    intro pattern
    rw [← h, classify_probe_of_firstListed hlisted]
  obtain ⟨pattern, hallows⟩ := exists_allows hook.index
  obtain ⟨first, hname, hfirst, -⟩ := classify_probe.mp ((hprobe pattern).mp hallows)
  have hsame : ∀ pattern, Allows hook.index pattern ↔ Allows first.index pattern := by
    intro pattern
    rw [hprobe, ← hname, classify_probe_of_firstListed hfirst]
  have hindex : first.index = hook.index := by
    rcases forall_allows_iff.mp fun pattern => (hsame pattern).mp with hnone | heq
    · rcases forall_allows_iff.mp fun pattern => (hsame pattern).mpr with hnone' | heq
      · rw [hnone, hnone']
      · exact heq.symm
    · exact heq
  exact eq_of_name_of_index hname hindex ▸ hfirst

/-- Two lists classify every binding alike when they have the same first entries, and only then. -/
theorem classify_alike_iff :
    (∀ c b, (withSafeHooks c hooks').classify b = (withSafeHooks c hooks).classify b) ↔
      ∀ hook, FirstListed hooks' hook ↔ FirstListed hooks hook := by
  constructor
  · intro h hook
    exact ⟨firstListed_of_alike h, firstListed_of_alike fun c b => (h c b).symm⟩
  · exact fun h c b => classifyWithin_withSafeHooks h aliasLimit b

/-- `b` is a variable of the render function, and some entry makes the part of the result stable
that it holds. -/
def IsListedResult (c : Classifier) (b : BindingId) : Prop :=
  ∃ binding init, c.Holds b binding init ∧
    ∃ hook ∈ c.convention.safeHooks, Yields c.source hook init binding.pattern

/-- Every entry is heeded when no first entry is narrower than one after it, and only then. -/
theorem forall_isListedResult_iff :
    (∀ c b, (withSafeHooks c hooks).IsListedResult b →
      (withSafeHooks c hooks).classify b = .stable .safeHook) ↔
      ∀ hook ∈ hooks, ∃ first, FirstListed hooks first ∧ first.name = hook.name ∧
        (first.index = none ∨ first.index = hook.index) := by
  constructor
  · intro h hook hmem
    obtain ⟨first, hfirst, hname⟩ := exists_firstListed hmem
    refine ⟨first, hfirst, hname, forall_allows_iff.mp fun pattern hallows => ?_⟩
    have hyields : Yields hook.name hook (probeCall hook.name) pattern :=
      ⟨calls_probeCall hook.name, hallows⟩
    have hclass := h (probe hook.name pattern) 0
      ⟨_, _, holds_probe hooks hook.name pattern, hook, hmem, hyields⟩
    rw [← hname] at hclass
    exact (classify_probe_of_firstListed hfirst).mp hclass
  · rintro h c b ⟨binding, init, hholds, hook, hmem, hcalls, hallows⟩
    obtain ⟨first, hfirst, hname, hindex⟩ := h hook hmem
    have hyields : Yields c.source first init binding.pattern :=
      ⟨hname ▸ hcalls, forall_allows_iff.mpr hindex binding.pattern hallows⟩
    exact classifyWithin_eq_safeHook_iff.mpr
      ⟨0, Nat.zero_le _, b, .here b, binding, init, hholds, first, hfirst, hyields⟩

/-- When the order of a list matters.  Two lists classify alike exactly when they have the same
first entries.  All orders of a list classify alike exactly when the entries for each name agree.
An entry is heeded wherever it stands exactly when the first entry for its name has no index or
the same one. -/
theorem safe_hook_order_iff (hooks : List SafeHook) :
    (∀ hooks', (∀ c b, (withSafeHooks c hooks').classify b = (withSafeHooks c hooks).classify b) ↔
      ∀ hook, FirstListed hooks' hook ↔ FirstListed hooks hook) ∧
    ((∀ hooks', hooks'.Perm hooks → ∀ c b,
        (withSafeHooks c hooks').classify b = (withSafeHooks c hooks).classify b) ↔
      ∀ h ∈ hooks, ∀ h' ∈ hooks, h.name = h'.name → h.index = h'.index) ∧
    ((∀ c b, (withSafeHooks c hooks).IsListedResult b →
        (withSafeHooks c hooks).classify b = .stable .safeHook) ↔
      ∀ hook ∈ hooks, ∃ first, FirstListed hooks first ∧ first.name = hook.name ∧
        (first.index = none ∨ first.index = hook.index)) := by
  refine ⟨fun _ => classify_alike_iff, ?_, forall_isListedResult_iff⟩
  simp only [classify_alike_iff]
  exact forall_perm_firstListed_iff

/-- Entries that agree may stand in any order; an entry for each of two elements may not, and the
second of them is not heeded. -/
theorem safe_hook_order_iff_elements :
    (∀ hooks', hooks'.Perm [⟨"useForm", none⟩, ⟨"useStore", some 1⟩, ⟨"useForm", none⟩] → ∀ c b,
      (withSafeHooks c hooks').classify b = (withSafeHooks c [⟨"useForm", none⟩,
        ⟨"useStore", some 1⟩, ⟨"useForm", none⟩]).classify b) ∧
    ¬ (∀ hooks', hooks'.Perm [⟨"useForm", some 0⟩, ⟨"useForm", some 1⟩] → ∀ c b,
      (withSafeHooks c hooks').classify b =
        (withSafeHooks c [⟨"useForm", some 0⟩, ⟨"useForm", some 1⟩]).classify b) := by
  obtain ⟨-, hagree, -⟩ :=
    safe_hook_order_iff [⟨"useForm", none⟩, ⟨"useStore", some 1⟩, ⟨"useForm", none⟩]
  obtain ⟨-, helements, -⟩ := safe_hook_order_iff [⟨"useForm", some 0⟩, ⟨"useForm", some 1⟩]
  exact ⟨hagree.mpr (by decide), fun h => absurd (helements.mp h) (by decide)⟩

/-- The tree of a render function with `const [a, b] = useForm()`. -/
def pairTree : Tree :=
  .node ⟨0, "program", .other, true, false, [], 0, 34⟩
    [.node ⟨1, "arrow_function", .arrowFunction, true, false, [], 0, 34⟩
      [.node ⟨2, "formal_parameters", .other, true, false, [.parameters], 0, 2⟩ [],
      .node ⟨3, "statement_block", .statementBlock, true, false, [.body], 6, 34⟩
        [.node ⟨4, "lexical_declaration", .lexicalDeclaration, true, false, [], 8, 32⟩
          [.node ⟨5, "const", .other, false, false, [.kind], 8, 13⟩ [],
          .node ⟨6, "variable_declarator", .declarator, true, false, [], 14, 32⟩
            [.node ⟨7, "array_pattern", .arrayPattern, true, false, [.name], 14, 20⟩
              [.node ⟨8, "identifier", .identifier, true, false, [], 15, 16⟩ [],
              .node ⟨9, ",", .comma, false, false, [], 16, 17⟩ [],
              .node ⟨10, "identifier", .identifier, true, false, [], 18, 19⟩ []],
            .node ⟨11, "call_expression", .call, true, false, [.value], 23, 32⟩
              [.node ⟨12, "identifier", .identifier, true, false, [.function], 23, 30⟩ [],
              .node ⟨13, "arguments", .arguments, true, false, [.arguments], 30, 32⟩ []]]]]]]

/-- The classifier of this unit, with a list of safe hooks. -/
def pairClassifier (hooks : List SafeHook) : Classifier :=
  withSafeHooks (.ofUnit "() => \x7b const [a, b] = useForm() \x7d" pairTree .default (some 1))
    hooks

/-- The second element is listed as stable, but it is so only where its entry comes first. -/
theorem second_element_not_heeded :
    (pairClassifier [⟨"useForm", some 0⟩, ⟨"useForm", some 1⟩]).IsListedResult 1 ∧
    (pairClassifier [⟨"useForm", some 0⟩, ⟨"useForm", some 1⟩]).classify 1 = .reactive ∧
    (pairClassifier [⟨"useForm", some 1⟩, ⟨"useForm", some 0⟩]).classify 1 = .stable .safeHook := by
  have hfirst : (pairClassifier [⟨"useForm", some 1⟩, ⟨"useForm", some 0⟩]).classifyWithin 0 1 =
      .stable .safeHook := by decide +kernel
  refine ⟨?_, by decide +kernel, by decide +kernel⟩
  -- The two lists have the same entries, so the one that counts here is listed there too.
  obtain ⟨k, hk, last, hchain, binding, init, hholds, hook, hlisted, hyields⟩ :=
    classifyWithin_eq_safeHook_iff.mp hfirst
  obtain rfl : k = 0 := Nat.le_zero.mp hk
  cases hchain
  have hmem : hook ∈ [⟨"useForm", some 0⟩, ⟨"useForm", some 1⟩] :=
    (List.Perm.swap _ _ _).mem_iff.mp hlisted.mem
  exact ⟨binding, init, ⟨hholds.inside, hholds.found, hholds.keyword, hholds.initialized⟩,
    hook, hmem, hyields⟩

end Classifier

end HookLint.Dependency

/-
The tables of a scope graph.

Scopes, bindings and references point at one another by index.  In the graph of a unit no
index leads out of its table, the way up from any scope ends at the unit's own, and the names
of the scopes and the bindings are the same pairs of a scope and a name: `WellFormed`.

Which declaration a binding stands for is said of the run that built the graph
(`arena_build`): it is the first of its name in its scope, and a `var` is in the nearest
function or module around the scope that was open where it was met.
-/
import HookLint.Proofs.Resolution

namespace HookLint.Scope.Graph

open HookLint.Syntax

/-- No index leads out of its table. -/
structure InRange (g : Graph) : Prop where
  scopes : ∀ (i : ScopeId) (scope : ScopeRecord), g.scopes[i]? = some scope →
    (∀ p, scope.parent = some p → p < g.scopes.size) ∧
      (∀ entry ∈ scope.names, entry.2 < g.bindings.size) ∧
        ∀ r ∈ scope.references, r < g.references.size
  bindings : ∀ binding ∈ g.bindings, binding.scope < g.scopes.size
  references : ∀ r ∈ g.references,
    r.scope < g.scopes.size ∧ ∀ b, r.resolved = some b → b < g.bindings.size
  uses : g.uses.size = g.bindings.size ∧ ∀ ids ∈ g.uses, ∀ r ∈ ids, r < g.references.size
  scopeNodes : ∀ entry ∈ g.scopeNodes, entry.2 < g.scopes.size
  referenceNodes : ∀ entry ∈ g.referenceNodes, entry.2 < g.references.size

/-- The tables of a graph are well formed. -/
structure WellFormed (g : Graph) : Prop where
  /-- The first scope is the unit's own. -/
  module : ∃ scope, g.scopes[moduleScope]? = some scope ∧ scope.kind = .module ∧
    scope.parent = none
  /-- Every other scope was opened after the one it is in. -/
  parent : ∀ (i : ScopeId) (scope : ScopeRecord), g.scopes[i]? = some scope → i ≠ moduleScope →
    ∃ p, scope.parent = some p ∧ p < i
  /-- The way up ends at the unit's own scope. -/
  top : ∀ i < g.scopes.size, (g.ancestors i).getLast? = some moduleScope
  inRange : g.InRange
  /-- The names of the scopes are those of the bindings. -/
  names : ∀ (s : ScopeId) (name : String) (b : BindingId),
    (∃ scope, g.scopes[s]? = some scope ∧ (name, b) ∈ scope.names) ↔ g.Declares s name b
  /-- A scope has a name once. -/
  nodup : ∀ (s : ScopeId) (scope : ScopeRecord), g.scopes[s]? = some scope →
    (scope.names.map Prod.fst).Nodup
  /-- A name is bound once in a scope. -/
  unique : ∀ (s : ScopeId) (name : String) (b c : BindingId),
    g.Declares s name b → g.Declares s name c → b = c
  named : ∀ binding ∈ g.bindings, binding.name ≠ ""

variable {source : String} {root : Tree}

theorem lt_size_of_siteOf? {g : Graph} {i : ScopeId} {s : Site} (h : g.siteOf? i = some s) :
    i < g.scopes.size :=
  siteOf?_isSome.mp (Option.isSome_of_eq_some h)

theorem lt_of_mem_referencesWhere {g : Graph} {p : Reference → Bool} {i : ReferenceId}
    (h : i ∈ g.referencesWhere p) : i < g.references.size :=
  List.mem_range.mp (List.mem_of_mem_filter h)

theorem size_uses (source : String) (root : Tree) :
    (build source root).uses.size = (build source root).bindings.size := by
  refine eq_of_forall_lt_iff fun b => ?_
  have hsome : (build source root).uses[b]?.isSome = (build source root).bindings[b]?.isSome := by
    rw [uses_build, Option.isSome_map]
  rw [Bool.eq_iff_iff, isSome_getElem?, isSome_getElem?] at hsome
  exact hsome

theorem inRange_build (source : String) (root : Tree) : (build source root).InRange where
  scopes i scope hs := by
    refine ⟨fun p hp => ?_, fun entry hentry => ?_, fun r hr => ?_⟩
    · have hlt := ranked_build source root i scope p hs hp
      exact Nat.lt_trans hlt (Array.getElem?_eq_some_iff.mp hs).1
    · obtain ⟨binding, hb, -, -⟩ := (sound_build source root).names i scope hs entry hentry
      exact (Array.getElem?_eq_some_iff.mp hb).1
    · rw [listed_build hs] at hr
      exact lt_of_mem_referencesWhere hr
  bindings binding hmem := by
    obtain ⟨i, hi⟩ := Array.mem_iff_getElem?.mp hmem
    obtain ⟨scope, hs, -⟩ :=
      Option.bind_eq_some_iff.mp ((filed_build source root).own i binding hi)
    exact (Array.getElem?_eq_some_iff.mp hs).1
  references r hr := by
    refine ⟨?_, fun b hb => ?_⟩
    · obtain ⟨b, hstage, hcurrent, -⟩ :=
        exists_stage_of_mem_references (Array.mem_toList_iff.mpr hr)
      exact hcurrent ▸ current_lt_size hstage rfl
    · obtain ⟨binding, hbinding, -⟩ := binding_of_resolved hr hb
      exact (Array.getElem?_eq_some_iff.mp hbinding).1
  uses := by
    refine ⟨size_uses source root, fun ids hids r hr => ?_⟩
    obtain ⟨b, hb⟩ := Array.mem_iff_getElem?.mp hids
    rw [uses_build] at hb
    obtain ⟨-, -, rfl⟩ := Option.map_eq_some_iff.mp hb
    exact lt_of_mem_referencesWhere hr
  scopeNodes entry hentry := by
    obtain ⟨s, hs, -⟩ := ((sound_build source root).scopeNodes entry.1 entry.2).mp hentry
    exact lt_size_of_siteOf? hs
  referenceNodes entry hentry := by
    obtain ⟨r, hr, -⟩ := ((sound_build source root).referenceNodes entry.1 entry.2).mp hentry
    exact (Array.getElem?_eq_some_iff.mp hr).1

theorem names_build (s : ScopeId) (name : String) (b : BindingId) :
    (∃ scope, (build source root).scopes[s]? = some scope ∧ (name, b) ∈ scope.names) ↔
      (build source root).Declares s name b := by
  constructor
  · rintro ⟨scope, hs, hmem⟩
    obtain ⟨binding, hb, hname, hscope⟩ := (sound_build source root).names s scope hs _ hmem
    exact ⟨binding, hb, hscope, hname⟩
  · rintro ⟨binding, hb, rfl, rfl⟩
    obtain ⟨scope, hs, hlookup⟩ :=
      Option.bind_eq_some_iff.mp ((filed_build source root).own b binding hb)
    obtain ⟨_, _, hnames, -⟩ := List.lookup_eq_some_iff.mp hlookup
    exact ⟨scope, hs, by rw [hnames]; simp⟩

theorem wellFormed_build (source : String) (root : Tree) : (build source root).WellFormed where
  module := by
    obtain ⟨scope, hs, houtline⟩ := Option.map_eq_some_iff.mp (outline?_module source root)
    exact ⟨scope, hs, congrArg (·.1) houtline, congrArg (·.2.1) houtline⟩
  parent _ _ := exists_parent
  top _ := getLast?_ancestors
  inRange := inRange_build source root
  names := names_build
  nodup := (filed_build source root).nodup
  unique s name b c hb hc := by
    have hown : ∀ {k}, (build source root).Declares s name k →
        (build source root).own? s name = some k :=
      (own?_eq_some_iff (sound_build source root) (filed_build source root)).mpr
    exact Option.some.inj ((hown hb).symm.trans (hown hc))
  named := (filed_build source root).named

/-- A `var` lands in the nearest function or module around it. -/
theorem nearest_of_var {b : Builder} {d : Declaration}
    (h : (b, .declare d) ∈ unitStages source root) (hkind : d.kind = .variable .varVar) :
    (build source root).Nearest (fun kind => kind = .function ∨ kind = .module) b.current
      (b.home d.target) := by
  obtain ⟨t, -, hbinds⟩ := binds_of_mem_unitStages h
  have htarget : d.target = .hoisted := hbinds.hoisted hkind
  rw [htarget]
  exact nearest_hoisted h

/-- What is declared is bound. -/
theorem declares_of_stage {b : Builder} {d : Declaration}
    (h : (b, .declare d) ∈ unitStages source root) (hname : d.name ≠ "") :
    ∃ k, (build source root).Declares (b.home d.target) d.name k := by
  have hoffered : b.bindingOf d ∈ (unitStages source root).filterMap Builder.offered :=
    List.mem_filterMap.mpr ⟨_, h, if_neg hname⟩
  have hsome : ((build source root).declared? (b.home d.target) d.name).isSome = true := by
    rw [declared?_build, List.find?_isSome]
    exact ⟨_, hoffered, Binding.isAt_iff.mpr ⟨rfl, rfl⟩⟩
  obtain ⟨binding, hbinding⟩ := Option.isSome_iff_exists.mp hsome
  obtain ⟨k, hk, -⟩ := Option.bind_eq_some_iff.mp hbinding
  exact ⟨k, (own?_eq_some_iff (sound_build source root) (filed_build source root)).mp hk⟩

/-- The tables of a unit's graph are well formed.  What is declared is bound, by the first
declaration of the name in its scope, and a `var` in the nearest function or module. -/
theorem arena_build (source : String) (root : Tree) :
    (build source root).WellFormed ∧
      (∀ b d, (b, .declare d) ∈ unitStages source root → d.name ≠ "" →
        ∃ k, (build source root).Declares (b.home d.target) d.name k) ∧
      ∀ (i : BindingId) (binding : Binding), (build source root).bindings[i]? = some binding →
        ∃ before b d after, unitStages source root = before ++ (b, .declare d) :: after ∧
          binding = b.bindingOf d ∧
          (∀ p ∈ before, ∀ other, Builder.offered p = some other →
            ¬ (other.scope = binding.scope ∧ other.name = binding.name)) ∧
          (binding.kind = .variable .varVar →
            (build source root).Nearest (fun kind => kind = .function ∨ kind = .module)
              b.current binding.scope) := by
  refine ⟨wellFormed_build source root, fun b d => declares_of_stage, fun i binding hi => ?_⟩
  obtain ⟨before, b, d, after, hstages, rfl, hfirst⟩ := exists_stage_of_binding hi
  have hmem : (b, .declare d) ∈ unitStages source root := by simp [hstages]
  refine ⟨before, b, d, after, hstages, rfl, fun p hp other hother hsame => ?_, ?_⟩
  · have hat := hfirst p hp other hother
    rw [Binding.isAt_iff.mpr hsame] at hat
    contradiction
  · exact nearest_of_var hmem

/-- The tree of `() => { { var x; } }`. -/
def hoisting : Tree :=
  .node ⟨0, "program", .other, true, false, [], 0, 20⟩
    [.node ⟨1, "arrow_function", .arrowFunction, true, false, [], 0, 20⟩
      [.node ⟨2, "formal_parameters", .other, true, false, [.parameters], 0, 2⟩ [],
       .node ⟨3, "statement_block", .statementBlock, true, false, [.body], 6, 20⟩
        [.node ⟨4, "statement_block", .statementBlock, true, false, [], 8, 18⟩
          [.node ⟨5, "variable_declaration", .variableDeclaration, true, false, [], 10, 16⟩
            [.node ⟨6, "variable_declarator", .declarator, true, false, [], 14, 15⟩
              [.node ⟨7, "identifier", .identifier, true, false, [.name], 14, 15⟩ []]]]]]]

theorem arena_build_hoisting :
    (build "() => \x7b \x7b var x; \x7d \x7d" hoisting).bindings.size = 1 ∧
      ∃ before b d after,
        unitStages "() => \x7b \x7b var x; \x7d \x7d" hoisting =
          before ++ (b, .declare d) :: after ∧ d.name = "x" ∧
        (build "() => \x7b \x7b var x; \x7d \x7d" hoisting).Nearest
          (fun kind => kind = .function ∨ kind = .module) b.current 1 := by
  have hbinding : ((build "() => \x7b \x7b var x; \x7d \x7d" hoisting).bindings[0]?).map
      (fun binding => (binding.name, binding.kind, binding.scope)) =
        some ("x", .variable .varVar, 1) := by decide +kernel
  obtain ⟨binding, hget, hfields⟩ := Option.map_eq_some_iff.mp hbinding
  simp only [Prod.mk.injEq] at hfields
  obtain ⟨hname, hkind, hscope⟩ := hfields
  obtain ⟨-, -, hfirst⟩ := arena_build "() => \x7b \x7b var x; \x7d \x7d" hoisting
  obtain ⟨before, b, d, after, hstages, hof, -, hvar⟩ := hfirst 0 binding hget
  refine ⟨by decide +kernel, before, b, d, after, hstages, ?_, hscope ▸ hvar hkind⟩
  rw [← hname, hof]
  rfl

end HookLint.Scope.Graph

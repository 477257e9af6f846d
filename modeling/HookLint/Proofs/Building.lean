/-
What the builder records.

A run of the builder is a list of stages, each a builder and the event it meets next.
The tables of the finished graph list the stages that wrote to them: `references_run`
and `scopes_run`.  Two invariants are kept by every step.

  * `Builder.Open`: the stack is the parent chain of its innermost scope, and scopes
    once opened keep their parents, so a reference's scope has for ancestors the
    scopes that were open when it was met;
  * `Graph.Sound`: the tables agree with one another, so that what a name means in a
    scope is a binding of that name declared in that scope.

The sites of the open scopes are the regions open around the event (`regions_step`),
which ties the tables to the reading of the tree.
-/
import HookLint.Scope.Build
import HookLint.Proofs.Walk

namespace HookLint.Scope

open HookLint.Syntax

/-! ### Scopes keep what they were opened with -/

/-- What a scope is opened with. -/
def ScopeRecord.outline (s : ScopeRecord) : ScopeKind × Option ScopeId × Site :=
  (s.kind, s.parent, s.site)

namespace Graph

variable {g g' g'' : Graph}

/-- What a scope was opened with. -/
def outline? (g : Graph) (i : ScopeId) : Option (ScopeKind × Option ScopeId × Site) :=
  (g.scopes[i]?).map ScopeRecord.outline

/-- The syntax that opened a scope. -/
def siteOf? (g : Graph) (i : ScopeId) : Option Site := (g.outline? i).map (·.2.2)

theorem siteOf?_eq_some {i : ScopeId} {s : Site} :
    g.siteOf? i = some s ↔ ∃ scope, g.scopes[i]? = some scope ∧ scope.site = s := by
  unfold siteOf? outline?
  rw [Option.map_map, Option.map_eq_some_iff]
  rfl

/-- The scopes of `g` are scopes of `g'`, opened in the same way. -/
def Extends (g g' : Graph) : Prop := ∀ i, i < g.scopes.size → g'.outline? i = g.outline? i

theorem outline?_isSome {i : ScopeId} : (g.outline? i).isSome = true ↔ i < g.scopes.size := by
  simp [outline?]

theorem siteOf?_isSome {i : ScopeId} : (g.siteOf? i).isSome = true ↔ i < g.scopes.size := by
  simp [siteOf?, outline?]

theorem Extends.refl (g : Graph) : Extends g g := fun _ _ => rfl

theorem Extends.size_le (h : Extends g g') : g.scopes.size ≤ g'.scopes.size := by
  rcases Nat.eq_zero_or_pos g.scopes.size with h0 | hpos
  · omega
  · have hlast : g.scopes.size - 1 < g.scopes.size := by omega
    have hsome : (g'.outline? (g.scopes.size - 1)).isSome = true := by
      rw [h _ hlast, outline?_isSome]
      exact hlast
    have hlt : g.scopes.size - 1 < g'.scopes.size := outline?_isSome.mp hsome
    omega

theorem Extends.trans (h : Extends g g') (h' : Extends g' g'') : Extends g g'' := by
  intro i hi
  rw [h' i (Nat.lt_of_lt_of_le hi h.size_le), h i hi]

theorem parent?_eq_outline (g : Graph) (i : ScopeId) :
    g.parent? i = (g.outline? i).bind fun o => o.2.1.filter (· < i) := by
  unfold parent? outline?
  cases g.scopes[i]? <;> rfl

theorem Extends.siteOf? (h : Extends g g') {i : ScopeId} (hi : i < g.scopes.size) :
    g'.siteOf? i = g.siteOf? i := by
  rw [Graph.siteOf?, Graph.siteOf?, h i hi]

theorem ancestors_of_parent {i p : ScopeId} (h : g.parent? i = some p) :
    g.ancestors i = i :: g.ancestors p := by
  rw [ancestors]
  split
  · rename_i q hq
    rw [h] at hq
    injection hq with hq
    rw [hq]
  · rename_i hq
    rw [h] at hq
    contradiction

theorem ancestors_of_no_parent {i : ScopeId} (h : g.parent? i = none) : g.ancestors i = [i] := by
  rw [ancestors]
  split
  · rename_i q hq
    rw [h] at hq
    contradiction
  · rfl

/-- What a scope is nested in depends on the parents of it and of the scopes before it. -/
theorem ancestors_congr : ∀ i : ScopeId, (∀ j ≤ i, g'.parent? j = g.parent? j) →
    g'.ancestors i = g.ancestors i := by
  intro i
  induction i using Nat.strong_induction_on with
  | _ i ih =>
      intro h
      have hparent := h i (Nat.le_refl i)
      cases hp : g.parent? i with
      | none => rw [ancestors_of_no_parent hp, ancestors_of_no_parent (hparent.trans hp)]
      | some p =>
          have hlt : p < i := lt_of_parent? hp
          rw [ancestors_of_parent hp, ancestors_of_parent (hparent.trans hp),
            ih p hlt fun j hj => h j (Nat.le_trans hj (Nat.le_of_lt hlt))]

theorem parent?_congr {i : ScopeId} (h : g'.outline? i = g.outline? i) :
    g'.parent? i = g.parent? i := by
  rw [parent?_eq_outline, parent?_eq_outline, h]

/-- Scopes opened later do not change what a scope is nested in. -/
theorem Extends.ancestors (h : Extends g g') {i : ScopeId} (hi : i < g.scopes.size) :
    g'.ancestors i = g.ancestors i :=
  ancestors_congr i fun j hj => parent?_congr (h j (Nat.lt_of_le_of_lt hj hi))

/-! ### Nesting -/

/-- `inner` is `outer` or is nested in it: following parents leads from one to the other. -/
inductive Nested (g : Graph) : ScopeId → ScopeId → Prop
  | self (s : ScopeId) : Nested g s s
  | parent {inner outer p : ScopeId} {scope : ScopeRecord} (hs : g.scopes[inner]? = some scope)
      (hp : scope.parent = some p) (h : Nested g p outer) : Nested g inner outer

/-- Every scope was opened after its parent. -/
def Ranked (g : Graph) : Prop :=
  ∀ (i : ScopeId) (scope : ScopeRecord) (p : ScopeId),
    g.scopes[i]? = some scope → scope.parent = some p → p < i

theorem isWithin_iff_mem {inner outer : ScopeId} :
    g.isWithin inner outer = true ↔ outer ∈ g.ancestors inner := by
  rw [isWithin, List.contains_iff_mem]

/-- Where scopes come after their parents, the recorded parent is the one that is followed. -/
theorem Ranked.parent?_eq_some_iff (hg : g.Ranked) {s p : ScopeId} :
    g.parent? s = some p ↔ ∃ scope, g.scopes[s]? = some scope ∧ scope.parent = some p := by
  unfold Graph.parent?
  cases hs : g.scopes[s]? with
  | none => simp
  | some scope =>
      simp only [Option.filter_eq_some_iff, decide_eq_true_eq, Option.some.injEq, exists_eq_left']
      exact ⟨And.left, fun h => ⟨h, hg s scope p hs h⟩⟩

/-- The list of ancestors holds the scopes that a scope is nested in. -/
theorem mem_ancestors_iff (hg : g.Ranked) {inner outer : ScopeId} :
    outer ∈ g.ancestors inner ↔ g.Nested inner outer := by
  induction inner using Nat.strong_induction_on with
  | _ inner ih =>
      cases hp : g.parent? inner with
      | none =>
          rw [ancestors_of_no_parent hp, List.mem_singleton]
          constructor
          · rintro rfl
            exact .self _
          · intro h
            cases h with
            | self => rfl
            | parent hs hparent _ =>
                rw [hg.parent?_eq_some_iff.mpr ⟨_, hs, hparent⟩] at hp
                contradiction
      | some p =>
          obtain ⟨scope, hscope, hsp⟩ := hg.parent?_eq_some_iff.mp hp
          rw [ancestors_of_parent hp, List.mem_cons, ih p (lt_of_parent? hp)]
          constructor
          · rintro (rfl | h)
            · exact .self _
            · exact .parent hscope hsp h
          · intro h
            cases h with
            | self => exact Or.inl rfl
            | parent hs hparent h =>
                rw [hg.parent?_eq_some_iff.mpr ⟨_, hs, hparent⟩, Option.some.injEq] at hp
                exact Or.inr (hp ▸ h)

theorem isWithin_iff_nested (hg : g.Ranked) (inner outer : ScopeId) :
    g.isWithin inner outer = true ↔ g.Nested inner outer := by
  rw [isWithin_iff_mem, mem_ancestors_iff hg]

end Graph

/-! ### One step of the builder -/

namespace Builder

variable {b : Builder}

theorem outline?_enter (kind : ScopeKind) (s : Site) (i : ScopeId) :
    (b.enter kind s).graph.outline? i =
      if i = b.graph.scopes.size then some (kind, b.stack.head?, s) else b.graph.outline? i := by
  unfold enter Graph.outline?
  rw [Array.getElem?_push]
  split <;> rfl

/-- The builder with a new binding in the home of its declaration. -/
def withBinding (b : Builder) (d : Declaration) : Builder :=
  { b with
    graph :=
      { b.graph with
        bindings := b.graph.bindings.push
          { name := d.name, kind := d.kind, scope := b.home d.target, ident := d.ident
            declaration := d.declaration, init := d.init, pattern := d.pattern }
        uses := b.graph.uses.push []
        scopes := b.graph.scopes.modify (b.home d.target) fun s =>
          { s with names := s.names ++ [(d.name, b.graph.bindings.size)] } } }

/-- A declaration adds its binding, or its scope has the name already. -/
theorem declare_cases (b : Builder) (d : Declaration) :
    b.declare d = b ∨
      b.graph.own? (b.home d.target) d.name = none ∧ b.declare d = b.withBinding d := by
  by_cases h : d.name = "" ∨ (b.graph.own? (b.home d.target) d.name).isSome = true
  · exact Or.inl (if_pos h)
  · refine Or.inr ⟨?_, if_neg h⟩
    simpa using (not_or.mp h).2

theorem outline?_withBinding (d : Declaration) (i : ScopeId) :
    (b.withBinding d).graph.outline? i = b.graph.outline? i := by
  unfold withBinding Graph.outline?
  rw [Array.getElem?_modify]
  split
  · rw [Option.map_map]
    rfl
  · rfl

theorem outline?_declare (d : Declaration) (i : ScopeId) :
    (b.declare d).graph.outline? i = b.graph.outline? i := by
  rcases declare_cases b d with heq | ⟨-, heq⟩ <;> rw [heq]
  exact outline?_withBinding d i

theorem extends_step (e : Event) : b.graph.Extends (b.step e).graph := by
  intro i hi
  cases e with
  | enter kind s =>
      show (b.enter kind s).graph.outline? i = _
      rw [outline?_enter, if_neg (Nat.ne_of_lt hi)]
  | leave => rfl
  | declare d => exact outline?_declare d i
  | refer => rfl

theorem stack_declare (d : Declaration) : (b.declare d).stack = b.stack := by
  rcases declare_cases b d with heq | ⟨-, heq⟩ <;> rw [heq]
  rfl

/-- The stack is the parent chain of the innermost open scope. -/
structure Open (b : Builder) : Prop where
  /-- Open scopes are in the table. -/
  lt_size : ∀ i ∈ b.stack, i < b.graph.scopes.size
  /-- What is below a scope on the stack is what the scope is nested in. -/
  chain : ∀ i rest, i :: rest <:+ b.stack → b.graph.ancestors i = i :: rest
  /-- Every scope was opened after its parent. -/
  ranked : b.graph.Ranked

/-- The syntax of the open scopes, innermost first. -/
def regions (b : Builder) : List Site := b.stack.filterMap b.graph.siteOf?

theorem Open.empty : Open Builder.empty where
  lt_size := by simp [Builder.empty]
  chain := by simp [Builder.empty]
  ranked := by simp [Builder.empty, Graph.empty, Graph.Ranked]

/-- Declaring and referring leave the stack and the outline of the scopes as they are. -/
theorem Open.of_outline (h : Open b) {b' : Builder} (hstack : b'.stack <:+ b.stack)
    (houtline : ∀ i, b'.graph.outline? i = b.graph.outline? i) : Open b' where
  lt_size i hi := by
    rw [← Graph.outline?_isSome, houtline, Graph.outline?_isSome]
    exact h.lt_size i (hstack.subset hi)
  chain i rest hi := by
    have hext : b.graph.Extends b'.graph := fun j _ => houtline j
    have hmem : i ∈ b.stack := (hi.trans hstack).subset List.mem_cons_self
    rw [hext.ancestors (h.lt_size i hmem)]
    exact h.chain i rest (hi.trans hstack)
  ranked i scope p hs hp := by
    have hout := houtline i
    rw [Graph.outline?, Graph.outline?, hs] at hout
    obtain ⟨scope', hs', heq⟩ := Option.map_eq_some_iff.mp hout.symm
    have hparent : scope'.parent = scope.parent := congrArg (·.2.1) heq
    exact h.ranked i scope' p hs' (hparent.trans hp)

theorem Open.enter (h : Open b) (kind : ScopeKind) (s : Site) : Open (b.enter kind s) := by
  have hext : b.graph.Extends (b.enter kind s).graph := extends_step (.enter kind s)
  have hsize : (b.enter kind s).graph.scopes.size = b.graph.scopes.size + 1 := Array.size_push ..
  have hnew := outline?_enter (b := b) kind s b.graph.scopes.size
  rw [if_pos rfl] at hnew
  refine ⟨?_, ?_, ?_⟩
  · intro i hi
    rw [hsize]
    rcases List.mem_cons.mp hi with rfl | hi
    · exact Nat.lt_succ_self _
    · exact Nat.lt_succ_of_lt (h.lt_size i hi)
  · intro i rest hi
    rcases List.suffix_cons_iff.mp hi with heq | hi
    · -- The new scope is nested in the scope that was innermost.
      injection heq with hi hrest
      subst hi
      subst hrest
      have hparent : (b.enter kind s).graph.parent? b.graph.scopes.size = b.stack.head? := by
        rw [Graph.parent?_eq_outline, hnew]
        cases hstack : b.stack with
        | nil => rfl
        | cons top below =>
            have htop := h.lt_size top (hstack ▸ List.mem_cons_self)
            simp [htop]
      cases hstack : b.stack with
      | nil =>
          rw [hstack] at hparent
          exact Graph.ancestors_of_no_parent hparent
      | cons top below =>
          rw [hstack] at hparent
          have htop := h.lt_size top (hstack ▸ List.mem_cons_self)
          rw [Graph.ancestors_of_parent hparent, hext.ancestors htop,
            h.chain top below (hstack ▸ List.suffix_refl _)]
    · have hmem : i ∈ b.stack := hi.subset List.mem_cons_self
      rw [hext.ancestors (h.lt_size i hmem)]
      exact h.chain i rest hi
  · intro i scope p hs hp
    have hout := outline?_enter (b := b) kind s i
    rw [Graph.outline?, hs] at hout
    split at hout
    · rename_i hi
      injection hout with hout
      have hhead : b.stack.head? = some p := by
        rw [← hp]
        exact (congrArg (·.2.1) hout).symm
      rw [hi]
      exact h.lt_size p (List.mem_of_head? hhead)
    · rw [Graph.outline?] at hout
      obtain ⟨scope', hs', heq⟩ := Option.map_eq_some_iff.mp hout.symm
      have hparent : scope'.parent = scope.parent := congrArg (·.2.1) heq
      exact h.ranked i scope' p hs' (hparent.trans hp)

theorem Open.step (h : Open b) (e : Event) : Open (b.step e) := by
  cases e with
  | enter kind s => exact h.enter kind s
  | leave => exact h.of_outline (List.tail_suffix _) fun _ => rfl
  | declare d =>
      exact h.of_outline (by simp only [Builder.step, stack_declare, List.suffix_refl])
        fun i => outline?_declare d i
  | refer => exact h.of_outline (List.suffix_refl _) fun _ => rfl

theorem filterMap_siteOf?_of_extends {g g' : Graph} (h : g.Extends g') {l : List ScopeId}
    (hl : ∀ i ∈ l, i < g.scopes.size) : l.filterMap g'.siteOf? = l.filterMap g.siteOf? :=
  List.filterMap_congr fun i hi => h.siteOf? (hl i hi)

/-- The open scopes follow the regions of the reading. -/
theorem regions_step (h : Open b) (e : Event) : (b.step e).regions = e.shift b.regions := by
  have hext := filterMap_siteOf?_of_extends (extends_step (b := b) e) h.lt_size
  cases e with
  | enter kind s =>
      have hnew : (b.enter kind s).graph.siteOf? b.graph.scopes.size = some s := by
        rw [Graph.siteOf?, outline?_enter, if_pos rfl]
        rfl
      show (b.graph.scopes.size :: b.stack).filterMap (b.enter kind s).graph.siteOf? = _
      rw [List.filterMap_cons_some hnew]
      exact congrArg (s :: ·) hext
  | leave =>
      show b.stack.tail.filterMap b.graph.siteOf? = b.regions.tail
      unfold regions
      cases hstack : b.stack with
      | nil => rfl
      | cons top below =>
          have hsome := Graph.siteOf?_isSome.mpr (h.lt_size top (hstack ▸ List.mem_cons_self))
          obtain ⟨s, hs⟩ := Option.isSome_iff_exists.mp hsome
          rw [List.filterMap_cons_some hs, List.tail_cons, List.tail_cons]
  | declare d =>
      unfold regions
      rw [Builder.step, stack_declare]
      exact hext
  | refer => exact hext

/-! ### Runs -/

theorem open_run (h : Open b) (es : List Event) : Open (b.run es) := by
  induction es generalizing b with
  | nil => exact h
  | cons e es ih => exact ih (h.step e)

theorem extends_run (es : List Event) : b.graph.Extends (b.run es).graph := by
  induction es generalizing b with
  | nil => exact Graph.Extends.refl _
  | cons e es ih => exact (extends_step e).trans ih

theorem open_of_mem_stages (h : Open b) {es : List Event} {p : Builder × Event}
    (hp : p ∈ stages step b es) : Open p.1 :=
  stages_inv Open (fun _ e hb => hb.step e) es b h p hp

/-- Every scope there is after a stage is a scope of the finished graph. -/
theorem extends_step_of_mem_stages {es : List Event} {p : Builder × Event}
    (hp : p ∈ stages step b es) : (p.1.step p.2).graph.Extends (b.run es).graph := by
  induction es generalizing b with
  | nil => contradiction
  | cons e es ih =>
      rcases List.mem_cons.mp hp with rfl | hp
      · exact extends_run es
      · exact ih hp

theorem extends_of_mem_stages {es : List Event} {p : Builder × Event} (hp : p ∈ stages step b es) :
    p.1.graph.Extends (b.run es).graph :=
  (extends_step p.2).trans (extends_step_of_mem_stages hp)

/-- The stages of the builder are the events with the regions around them. -/
theorem map_regions_stages (h : Open b) (es : List Event) :
    (stages step b es).map (Prod.map regions id) = traced b.regions es :=
  map_stages regions Open (fun _ e hb => hb.step e) (fun _ e hb => regions_step hb e) es b h

/-- What a stage enters in the table of references. -/
def recorded : Builder × Event → Option Reference
  | (b, .refer name site access) => some { name, site, scope := b.current, access, resolved := none }
  | _ => none

theorem references_run (es : List Event) :
    (b.run es).graph.references.toList =
      b.graph.references.toList ++ (stages step b es).filterMap recorded := by
  induction es generalizing b with
  | nil => simp [run, stages]
  | cons e es ih =>
      show ((b.step e).run es).graph.references.toList = _
      rw [ih, stages, List.filterMap_cons]
      cases e with
      | enter => rfl
      | leave => rfl
      | declare d =>
          have : (b.step (.declare d)).graph.references = b.graph.references := by
            show (b.declare d).graph.references = _
            rcases declare_cases b d with heq | ⟨-, heq⟩ <;> rw [heq]
            rfl
          rw [this]
          rfl
      | refer name s access => simp [step, refer, recorded]

/-- What a stage enters in the table of scopes. -/
def opened : Builder × Event → Option (ScopeKind × Option ScopeId × Site)
  | (b, .enter kind site) => some (kind, b.stack.head?, site)
  | _ => none

theorem scopes_run (es : List Event) :
    (b.run es).graph.scopes.toList.map ScopeRecord.outline =
      b.graph.scopes.toList.map ScopeRecord.outline ++ (stages step b es).filterMap opened := by
  induction es generalizing b with
  | nil => simp [run, stages]
  | cons e es ih =>
      show ((b.step e).run es).graph.scopes.toList.map _ = _
      rw [ih, stages, List.filterMap_cons]
      cases e with
      | enter kind s => simp [step, enter, opened, ScopeRecord.outline]
      | leave => rfl
      | declare d =>
          have : (b.step (.declare d)).graph.scopes.toList.map ScopeRecord.outline =
              b.graph.scopes.toList.map ScopeRecord.outline := by
            refine List.ext_getElem? fun i => ?_
            have h := outline?_declare (b := b) d i
            simpa [Graph.outline?, Builder.step] using h
          rw [this]
          rfl
      | refer => rfl

end Builder

/-! ### The tables agree -/

/-- The tables of a graph agree with one another. -/
structure Graph.Sound (g : Graph) : Prop where
  /-- A name of a scope is a binding of that name declared in that scope. -/
  names : ∀ (i : ScopeId) (scope : ScopeRecord), g.scopes[i]? = some scope → ∀ p ∈ scope.names,
    ∃ binding, g.bindings[p.2]? = some binding ∧ binding.name = p.1 ∧ binding.scope = i
  /-- Scopes are found under the number of the node that opened them. -/
  scopeNodes : ∀ (n : Nat) (i : ScopeId),
    (n, i) ∈ g.scopeNodes ↔ ∃ s, g.siteOf? i = some s ∧ s.id = n
  /-- References are found under the number of their node. -/
  referenceNodes : ∀ (n : Nat) (i : ReferenceId),
    (n, i) ∈ g.referenceNodes ↔ ∃ r, g.references[i]? = some r ∧ r.site.id = n

/-- A name of a scope means a binding of that name declared in that scope. -/
theorem Graph.Sound.binding_of_own? {g : Graph} (h : g.Sound) {i : ScopeId} {name : String}
    {b : BindingId} (hown : g.own? i name = some b) :
    ∃ binding, g.bindings[b]? = some binding ∧ binding.name = name ∧ binding.scope = i := by
  obtain ⟨scope, hscope, hlookup⟩ := Option.bind_eq_some_iff.mp hown
  obtain ⟨_, _, hnames, _⟩ := List.lookup_eq_some_iff.mp hlookup
  exact h.names i scope hscope (name, b) (by rw [hnames]; simp)

/-- What a name means is declared in the nearest enclosing scope that declares it. -/
theorem Graph.Sound.binding_of_lookup? {g : Graph} (h : g.Sound) {i : ScopeId} {name : String}
    {b : BindingId} (hlookup : g.lookup? i name = some b) :
    ∃ binding, g.bindings[b]? = some binding ∧ binding.name = name ∧
      binding.scope ∈ g.ancestors i := by
  obtain ⟨⟨a, b'⟩, howner, rfl⟩ := Option.map_eq_some_iff.mp hlookup
  obtain ⟨c, hc, hmap⟩ := List.exists_of_findSome?_eq_some howner
  obtain ⟨_, hown, heq⟩ := Option.map_eq_some_iff.mp hmap
  injection heq with hca hb
  subst hca
  subst hb
  obtain ⟨binding, hb, hname, hscope⟩ := h.binding_of_own? hown
  exact ⟨binding, hb, hname, hscope ▸ hc⟩

namespace Builder

variable {b : Builder}

theorem sound_empty : Builder.empty.graph.Sound where
  names := by simp [Builder.empty, Graph.empty]
  scopeNodes := by simp [Builder.empty, Graph.empty, Graph.siteOf?, Graph.outline?]
  referenceNodes := by simp [Builder.empty, Graph.empty]

theorem sound_enter (h : b.graph.Sound) (kind : ScopeKind) (s : Site) :
    (b.enter kind s).graph.Sound where
  names i scope hs p hp := by
    simp only [enter, Array.getElem?_push] at hs
    split at hs
    · injection hs with hs
      subst hs
      contradiction
    · exact h.names i scope hs p hp
  scopeNodes n i := by
    rw [Graph.siteOf?, outline?_enter]
    simp only [enter, List.mem_cons, Prod.mk.injEq]
    constructor
    · rintro (⟨rfl, rfl⟩ | hmem)
      · exact ⟨s, by simp, rfl⟩
      · obtain ⟨t, ht, hid⟩ := (h.scopeNodes n i).mp hmem
        have hi : i < b.graph.scopes.size := Graph.siteOf?_isSome.mp (by rw [ht]; rfl)
        rw [if_neg (Nat.ne_of_lt hi)]
        exact ⟨t, ht, hid⟩
    · rintro ⟨t, ht, hid⟩
      split at ht
      · rename_i hi
        injection ht with ht
        subst ht
        exact Or.inl ⟨hid.symm, hi⟩
      · exact Or.inr ((h.scopeNodes n i).mpr ⟨t, ht, hid⟩)
  referenceNodes := h.referenceNodes

theorem sound_withBinding (h : b.graph.Sound) (d : Declaration) : (b.withBinding d).graph.Sound where
  names i scope hs p hp := by
    -- Bindings that were there keep their place.
    have hold : ∀ {scope' : ScopeRecord}, b.graph.scopes[i]? = some scope' → p ∈ scope'.names →
        ∃ binding, (b.withBinding d).graph.bindings[p.2]? = some binding ∧ binding.name = p.1 ∧
          binding.scope = i := by
      intro scope' hs' hp'
      obtain ⟨binding, hb, hname, hscope⟩ := h.names i scope' hs' p hp'
      refine ⟨binding, ?_, hname, hscope⟩
      have hlt := (Array.getElem?_eq_some_iff.mp hb).1
      rw [withBinding, Array.getElem?_push, if_neg (Nat.ne_of_lt hlt)]
      exact hb
    simp only [withBinding, Array.getElem?_modify] at hs
    split at hs
    · rename_i hi
      obtain ⟨scope', hs', heq⟩ := Option.map_eq_some_iff.mp hs
      subst heq
      rcases List.mem_append.mp hp with hp | hp
      · exact hold hs' hp
      · rw [List.mem_singleton.mp hp]
        exact ⟨_, by rw [withBinding, Array.getElem?_push, if_pos rfl], rfl, hi⟩
    · exact hold hs hp
  scopeNodes n i := by
    rw [Graph.siteOf?, outline?_withBinding]
    exact h.scopeNodes n i
  referenceNodes := h.referenceNodes

theorem sound_refer (h : b.graph.Sound) (name : String) (s : Site) (access : Access) :
    (b.refer name s access).graph.Sound where
  names := h.names
  scopeNodes := h.scopeNodes
  referenceNodes n i := by
    simp only [refer, List.mem_cons, Prod.mk.injEq, Array.getElem?_push]
    constructor
    · rintro (⟨rfl, rfl⟩ | hmem)
      · exact ⟨_, if_pos rfl, rfl⟩
      · obtain ⟨r, hr, hid⟩ := (h.referenceNodes n i).mp hmem
        have hlt := (Array.getElem?_eq_some_iff.mp hr).1
        rw [if_neg (Nat.ne_of_lt hlt)]
        exact ⟨r, hr, hid⟩
    · rintro ⟨r, hr, hid⟩
      split at hr
      · rename_i hi
        injection hr with hr
        subst hr
        exact Or.inl ⟨hid.symm, hi⟩
      · exact Or.inr ((h.referenceNodes n i).mpr ⟨r, hr, hid⟩)

theorem sound_step (h : b.graph.Sound) (e : Event) : (b.step e).graph.Sound := by
  cases e with
  | enter kind s => exact sound_enter h kind s
  | leave => exact h
  | declare d =>
      show (b.declare d).graph.Sound
      rcases declare_cases b d with heq | ⟨-, heq⟩ <;> rw [heq]
      · exact h
      · exact sound_withBinding h d
  | refer name s access => exact sound_refer h name s access

theorem sound_run (h : b.graph.Sound) (es : List Event) : (b.run es).graph.Sound := by
  induction es generalizing b with
  | nil => exact h
  | cons e es ih => exact ih (sound_step h e)

end Builder

/-! ### Resolution -/

namespace Graph

variable {g g' g'' : Graph}

/-- What a scope is without the references to it. -/
def bare? (g : Graph) (i : ScopeId) :
    Option ((ScopeKind × Option ScopeId × Site) × List (String × BindingId)) :=
  (g.scopes[i]?).map fun s => (s.outline, s.names)

/-- The graphs differ at most in what is known of references. -/
structure Alike (g g' : Graph) : Prop where
  scopes : ∀ i, g'.bare? i = g.bare? i
  bindings : g'.bindings = g.bindings
  scopeNodes : g'.scopeNodes = g.scopeNodes
  referenceNodes : g'.referenceNodes = g.referenceNodes

theorem Alike.refl (g : Graph) : Alike g g := ⟨fun _ => rfl, rfl, rfl, rfl⟩

theorem Alike.trans (h : Alike g g') (h' : Alike g' g'') : Alike g g'' where
  scopes i := (h'.scopes i).trans (h.scopes i)
  bindings := h'.bindings.trans h.bindings
  scopeNodes := h'.scopeNodes.trans h.scopeNodes
  referenceNodes := h'.referenceNodes.trans h.referenceNodes

/-- A scope has its names in both graphs. -/
theorem Alike.exists_scope (h : Alike g g') {i : ScopeId} {scope : ScopeRecord}
    (hs : g'.scopes[i]? = some scope) :
    ∃ scope', g.scopes[i]? = some scope' ∧ scope'.names = scope.names := by
  have hbare := h.scopes i
  rw [bare?, bare?, hs] at hbare
  obtain ⟨scope', hs', heq⟩ := Option.map_eq_some_iff.mp hbare.symm
  exact ⟨scope', hs', congrArg Prod.snd heq⟩

theorem Alike.outline? (h : Alike g g') (i : ScopeId) : g'.outline? i = g.outline? i := by
  have := congrArg (Option.map Prod.fst) (h.scopes i)
  simpa [bare?, Graph.outline?, Option.map_map, Function.comp_def] using this

theorem Alike.ancestors (h : Alike g g') (i : ScopeId) : g'.ancestors i = g.ancestors i :=
  ancestors_congr i fun j _ => parent?_congr (h.outline? j)

theorem own?_eq_bare (g : Graph) (i : ScopeId) (name : String) :
    g.own? i name = (g.bare? i).bind fun s => s.2.lookup name := by
  unfold own? bare?
  cases g.scopes[i]? <;> rfl

theorem Alike.own? (h : Alike g g') (i : ScopeId) (name : String) :
    g'.own? i name = g.own? i name := by
  rw [own?_eq_bare, own?_eq_bare, h.scopes]

theorem Alike.owner? (h : Alike g g') (i : ScopeId) (name : String) :
    g'.owner? i name = g.owner? i name := by
  unfold Graph.owner?
  rw [h.ancestors]
  simp only [h.own?]

theorem Alike.lookup? (h : Alike g g') (i : ScopeId) (name : String) :
    g'.lookup? i name = g.lookup? i name := by
  unfold Graph.lookup?
  rw [h.owner?]

theorem alike_resolveOne (g : Graph) (id : ReferenceId) : Alike g (g.resolveOne id) := by
  unfold resolveOne
  split
  · exact .refl g
  · split
    · exact .refl g
    · refine ⟨fun i => ?_, rfl, rfl, rfl⟩
      simp only [bare?, Array.getElem?_modify]
      split
      · rw [Option.map_map]
        rfl
      · rfl

/-- The reference with what its name means. -/
def resolved (g : Graph) (r : Reference) : Reference := { r with resolved := g.lookup? r.scope r.name }

theorem references_resolveOne {id : ReferenceId}
    (hnone : ∀ r, g.references[id]? = some r → r.resolved = none) (j : ReferenceId) :
    (g.resolveOne id).references[j]? =
      if j = id then (g.references[j]?).map g.resolved else g.references[j]? := by
  unfold resolveOne
  split
  · rename_i hid
    split
    · rename_i hj
      rw [hj, hid]
      rfl
    · rfl
  · rename_i r hid
    split
    · -- A global keeps its empty resolution.
      rename_i howner
      split
      · rename_i hj
        rw [hj, hid]
        have hlookup : g.lookup? r.scope r.name = none := by rw [lookup?, howner]; rfl
        have hr := hnone r hid
        simp only [Option.map_some, resolved, hlookup, ← hr]
      · rfl
    · rename_i owner binding howner
      simp only [Array.getElem?_modify]
      by_cases hj : j = id
      · have hlookup : g.lookup? r.scope r.name = some binding := by rw [lookup?, howner]; rfl
        rw [if_pos hj, if_pos hj.symm, hj, hid]
        simp only [Option.map_some, resolved, hlookup]
      · rw [if_neg hj, if_neg (Ne.symm hj)]

/-- After some references are resolved, they and no others know what they mean. -/
theorem resolve_range (hnone : ∀ r ∈ g.references, r.resolved = none) (n : Nat) :
    Alike g ((List.range n).foldl resolveOne g) ∧ ∀ j : Nat,
      ((List.range n).foldl resolveOne g).references[j]? =
        if j < n then (g.references[j]?).map g.resolved else g.references[j]? := by
  induction n with
  | zero => exact ⟨.refl g, fun j => by simp⟩
  | succ n ih =>
      obtain ⟨halike, href⟩ := ih
      rw [List.range_succ, List.foldl_append, List.foldl_cons, List.foldl_nil]
      refine ⟨halike.trans (alike_resolveOne _ _), fun j => ?_⟩
      have hresolved : ((List.range n).foldl resolveOne g).resolved = g.resolved := by
        funext r
        unfold resolved
        rw [halike.lookup?]
      rw [references_resolveOne, href j, hresolved]
      · by_cases hj : j = n
        · rw [if_pos hj, if_neg (by omega), if_pos (by omega)]
        · rw [if_neg hj]
          by_cases hlt : j < n
          · rw [if_pos hlt, if_pos (by omega)]
          · rw [if_neg hlt, if_neg (by omega)]
      · intro r hr
        rw [href n, if_neg (Nat.lt_irrefl n)] at hr
        exact hnone r (Array.mem_of_getElem? hr)

theorem alike_resolve (hnone : ∀ r ∈ g.references, r.resolved = none) : Alike g g.resolve :=
  (resolve_range hnone _).1

theorem references_resolve (hnone : ∀ r ∈ g.references, r.resolved = none) :
    g.resolve.references.toList = g.references.toList.map g.resolved := by
  refine List.ext_getElem? fun j => ?_
  rw [Array.getElem?_toList, List.getElem?_map, Array.getElem?_toList]
  show ((List.range g.references.size).foldl resolveOne g).references[j]? = _
  rw [(resolve_range hnone _).2 j]
  split
  · rfl
  · rw [Array.getElem?_eq_none (by omega)]
    rfl

/-! ### The finished graph -/

variable {source : String} {root : Tree}

/-- The builder after reading a unit. -/
def built (source : String) (root : Tree) : Builder := Builder.empty.run (unitEvents source root)

/-- A unit's events, each with the builder that meets it. -/
def unitStages (source : String) (root : Tree) : List (Builder × Event) :=
  stages Builder.step Builder.empty (unitEvents source root)

theorem references_built (source : String) (root : Tree) :
    (built source root).graph.references.toList =
      (unitStages source root).filterMap Builder.recorded :=
  Builder.references_run (b := Builder.empty) _

theorem resolved_built : ∀ r ∈ (built source root).graph.references, r.resolved = none := by
  intro r hr
  have hmem : r ∈ (unitStages source root).filterMap Builder.recorded := by
    rw [← references_built]
    exact Array.mem_toList_iff.mpr hr
  obtain ⟨⟨b, e⟩, -, h⟩ := List.mem_filterMap.mp hmem
  cases e with
  | refer =>
      injection h with h
      rw [← h]
  | _ => contradiction

theorem alike_build (source : String) (root : Tree) :
    Alike (built source root).graph (build source root) :=
  alike_resolve resolved_built

theorem sound_build (source : String) (root : Tree) : (build source root).Sound := by
  have h : (built source root).graph.Sound := Builder.sound_run Builder.sound_empty _
  have halike := alike_build source root
  refine ⟨?_, ?_, ?_⟩
  · intro i scope hs p hp
    obtain ⟨scope', hs', hnames⟩ := halike.exists_scope hs
    rw [halike.bindings]
    exact h.names i scope' hs' p (hnames ▸ hp)
  · intro n i
    rw [halike.scopeNodes, Graph.siteOf?, halike.outline?]
    exact h.scopeNodes n i
  · intro n i
    rw [halike.referenceNodes, h.referenceNodes n i]
    have href : (build source root).references[i]? =
        ((built source root).graph.references[i]?).map (built source root).graph.resolved := by
      rw [← Array.getElem?_toList, ← Array.getElem?_toList, ← List.getElem?_map]
      exact congrArg (·[i]?) (references_resolve resolved_built)
    rw [href]
    constructor
    · rintro ⟨r, hr, hid⟩
      exact ⟨_, Option.map_eq_some_iff.mpr ⟨r, hr, rfl⟩, hid⟩
    · rintro ⟨_, hmap, hid⟩
      obtain ⟨r, hr, rfl⟩ := Option.map_eq_some_iff.mp hmap
      exact ⟨r, hr, hid⟩

theorem references_build (source : String) (root : Tree) :
    (build source root).references.toList =
      ((unitStages source root).filterMap Builder.recorded).map
        (built source root).graph.resolved := by
  rw [← references_built]
  exact references_resolve resolved_built

/-- Every reference was met at a stage, in the innermost scope open there, and means what its
name means seen from that scope. -/
theorem exists_stage_of_mem_references {r : Reference}
    (hr : r ∈ (build source root).references.toList) :
    ∃ b, (b, .refer r.name r.site r.access) ∈ unitStages source root ∧ r.scope = b.current ∧
      r.resolved = (build source root).lookup? r.scope r.name := by
  rw [references_build] at hr
  obtain ⟨r', hr', rfl⟩ := List.mem_map.mp hr
  obtain ⟨⟨b, e⟩, hstage, h⟩ := List.mem_filterMap.mp hr'
  cases e with
  | refer name s access =>
      injection h with h
      subst h
      refine ⟨b, hstage, rfl, ?_⟩
      rw [(alike_build source root).lookup?]
      rfl
  | _ => contradiction

end Graph

end HookLint.Scope

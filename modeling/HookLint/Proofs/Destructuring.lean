/-
What a pattern declares.

A pattern is read with one stack of steps: the steps of a part are pushed before the part is
read and popped after it.  `walk` is that reading; it gives the events of the pattern and
leaves the stack as it found it (`run_walk`).

A builder that reads a pattern meets its items one after the other.  Reading a value opens
and closes regions in pairs, so all names of the pattern are declared in one scope, the home
they have from the start (`home_meet`).  A name is entered there unless it is there
already; so the bindings that a pattern adds to the table are those of its own names, each the
first of its name and with the steps that lead to it, and what its values declare
(`bindings_meet`).
-/
import HookLint.Proofs.Addresses
import HookLint.Proofs.Declarations
import Mathlib.Data.List.Find
import Mathlib.Data.List.Induction

namespace HookLint.Scope

open HookLint.Syntax

namespace Pattern

variable {source : String} {binder : Binder} {s : Site}

/-! ### One stack of steps -/

/-- Takes an action with steps pushed on the stack, and pops them afterwards. -/
def pushed {α : Type} (added : List PatternStep) (action : StateM (List PatternStep) α) :
    StateM (List PatternStep) α := do
  modify (· ++ added)
  let result ← action
  modify fun steps => steps.take (steps.length - added.length)
  return result

/-- An event of a pattern: a name is declared where the stack says. -/
def emit (e : Event) : StateM (List PatternStep) (List Event) :=
  match e with
  | .declare d => pushed d.pattern do return [.declare { d with pattern := ← get }]
  | e => return [e]

/-- The events of a pattern, read with a stack of steps. -/
def walk (source : String) (role : Role) (s : Site) : StateM (List PatternStep) (List Event) :=
  match role with
  | .pattern binder added => pushed added do
    let found ← (expandPattern source binder [] s).attach.mapM fun
      | ⟨.emit e, _⟩ => emit e
      | ⟨.visit r c, _⟩ => walk source r c
    return found.flatten
  | role => return events source role s
termination_by sizeOf s.tree
decreasing_by exact expandPattern_within (by assumption)

/-- What a contribution to a pattern gives when it is its turn. -/
def perform (source : String) : Step → StateM (List PatternStep) (List Event)
  | .emit e => emit e
  | .visit role c => walk source role c

/-- Contributions one after the other. -/
def performAll (source : String) (l : List Step) : StateM (List PatternStep) (List Event) := do
  let found ← l.mapM (perform source)
  return found.flatten

theorem walk_pattern (source : String) (binder : Binder) (added : List PatternStep) (s : Site) :
    walk source (.pattern binder added) s =
      pushed added (performAll source (expandPattern source binder [] s)) := by
  rw [walk, List.mapM_subtype (g := perform source), List.unattach_attach]
  · rfl
  · intro step h
    cases step <;> rfl

/-- What is pushed is popped. -/
theorem run_pushed {α : Type} {added : List PatternStep} {action : StateM (List PatternStep) α}
    {result : List PatternStep → α} (h : ∀ steps, action.run steps = (result steps, steps))
    (steps : List PatternStep) :
    (pushed added action).run steps = (result (steps ++ added), steps) := by
  have hrun : (pushed added action).run steps =
      ((action.run (steps ++ added)).1, (action.run (steps ++ added)).2.take
        ((action.run (steps ++ added)).2.length - added.length)) := rfl
  rw [hrun, h]
  simp

theorem run_performAll {l : List Step}
    (h : ∀ step ∈ l, ∀ steps,
      (perform source step).run steps = ((under steps step).events source, steps))
    (steps : List PatternStep) :
    (performAll source l).run steps =
      (l.flatMap fun step => (under steps step).events source, steps) := by
  induction l with
  | nil => rfl
  | cons step l ih =>
      have hstep := h step List.mem_cons_self steps
      have hl := ih fun other hother => h other (List.mem_cons_of_mem _ hother)
      have hrun : (performAll source (step :: l)).run steps =
          (((perform source step).run steps).1 ++
            ((performAll source l).run ((perform source step).run steps).2).1,
            ((performAll source l).run ((perform source step).run steps).2).2) := by
        rw [performAll, List.mapM_cons]
        rfl
      rw [hrun, hstep, hl]
      rfl

theorem run_emit (e : Event) (steps : List PatternStep) :
    (emit e).run steps = ((under steps (.emit e)).events source, steps) := by
  cases e with
  | declare d => exact run_pushed (fun _ => rfl) steps
  | _ => rfl

theorem run_walk_of_size (source : String) : ∀ (n : Nat) (role : Role) (s : Site),
    sizeOf s.tree = n → ∀ steps,
      (walk source role s).run steps = ((under steps (.visit role s)).events source, steps) := by
  intro n
  induction n using Nat.strong_induction_on with
  | _ n ih =>
      intro role s hn steps
      cases role with
      | pattern binder added =>
          have hperform : ∀ step ∈ expandPattern source binder [] s, ∀ steps,
              (perform source step).run steps = ((under steps step).events source, steps) := by
            intro step hstep
            cases step with
            | emit e => exact run_emit e
            | visit r c => exact ih _ (hn ▸ expandPattern_within hstep) r c rfl
          rw [walk_pattern, run_pushed (run_performAll hperform)]
          show (_, steps) = (events source (.pattern binder (steps ++ added)) s, steps)
          rw [events_eq]
          show _ = ((expandPattern source binder (steps ++ added) s).flatMap _, steps)
          rw [expandPattern_eq_map (steps ++ added), List.flatMap_map]
      | _ =>
          rw [walk]
          · rfl
          · simp

/-- Reading a pattern with a stack gives its events, and the stack is as before. -/
theorem run_walk (source : String) (binder : Binder) (s : Site) (steps : List PatternStep) :
    (walk source (.pattern binder []) s).run steps =
      (events source (.pattern binder steps) s, steps) := by
  rw [run_walk_of_size source _ _ s rfl]
  show (events source (.pattern binder (steps ++ [])) s, steps) = _
  rw [List.append_nil]

end Pattern

/-! ### Regions are left again -/

namespace Builder

variable {b : Builder}

/-- Events change the stack of open scopes as they change the regions around them: some of
them are left, and new ones entered. -/
theorem exists_stack_run (es : List Event) : ∃ (left : Nat) (sites : List Site)
    (entered : List ScopeId), entered.length = sites.length ∧
      (∀ inside, es.foldl Event.shift inside = sites ++ inside.drop left) ∧
      (b.run es).stack = entered ++ b.stack.drop left := by
  induction es using List.reverseRecOn with
  | nil => exact ⟨0, [], [], rfl, fun _ => rfl, rfl⟩
  | append_singleton es e ih =>
      obtain ⟨left, sites, entered, hlength, hinside, hstack⟩ := ih
      have hrun : b.run (es ++ [e]) = (b.run es).step e := by rw [run, List.foldl_append]; rfl
      simp only [hrun, List.foldl_append, hinside, List.foldl_cons, List.foldl_nil]
      cases e with
      | enter kind s =>
          refine ⟨left, s :: sites, (b.run es).graph.scopes.size :: entered, ?_, fun _ => rfl, ?_⟩
          · simp [hlength]
          · show _ :: (b.run es).stack = _
            rw [hstack]
            rfl
      | leave =>
          show ∃ _ _ _, _ ∧ (∀ inside : List Site, (sites ++ inside.drop left).tail = _) ∧
            (b.run es).stack.tail = _
          rw [hstack]
          -- What was entered last is left first; an older scope only after those.
          cases sites with
          | nil =>
              obtain rfl := List.length_eq_zero_iff.mp hlength
              exact ⟨left + 1, [], [], rfl, by simp, by simp⟩
          | cons s sites =>
              obtain ⟨i, entered, rfl⟩ := List.exists_cons_of_length_eq_add_one hlength
              exact ⟨left, sites, entered, by simpa using hlength, fun _ => rfl, rfl⟩
      | declare d =>
          exact ⟨left, sites, entered, hlength, fun _ => rfl, (stack_declare d).trans hstack⟩
      | refer => exact ⟨left, sites, entered, hlength, fun _ => rfl, hstack⟩

/-- Reading a site leaves the scopes open that were open before. -/
theorem stack_run_events (b : Builder) (source : String) (role : Role) (s : Site) :
    (b.run (events source role s)).stack = b.stack := by
  obtain ⟨left, sites, entered, hlength, hinside, hstack⟩ :=
    exists_stack_run (b := b) (events source role s)
  -- Whatever regions were open stay open: none is entered for good, and none is left unless
  -- there is none to leave.
  simp only [events_shift] at hinside
  have hsites : sites = [] := by simpa using (hinside []).symm
  have hleft := congrArg List.length (hinside (b.stack.map fun _ => s))
  subst hsites
  obtain rfl := List.length_eq_zero_iff.mp hlength
  rw [hstack, List.nil_append]
  simp only [List.nil_append, List.length_drop, List.length_map] at hleft
  by_cases hzero : left = 0
  · rw [hzero, List.drop_zero]
  · have hnil : b.stack = [] := List.length_eq_zero_iff.mp (by omega)
    rw [hnil, List.drop_nil]

/-- Where a declaration lands is a matter of the open scopes. -/
theorem home_run (hb : b.Begun) {es : List Event} (hstack : (b.run es).stack = b.stack)
    (target : Target) : (b.run es).home target = b.home target := by
  cases target with
  | current => exact congrArg (·.headD moduleScope) hstack
  | hoisted =>
      show (b.run es).hoistTarget = b.hoistTarget
      unfold hoistTarget
      rw [hstack]
      congr 1
      refine List.find?_congr fun i hi => ?_
      have houtline : (b.run es).graph.outline? i = b.graph.outline? i :=
        extends_run es i (hb.opened.lt_size i hi)
      have hkind (g : Graph) : (g.scopes[i]?).any
          (fun scope => scope.kind == .function || scope.kind == .module) =
            (g.outline? i).any fun outline => outline.1 == .function || outline.1 == .module := by
        rw [Graph.outline?, Option.any_map]
        rfl
      rw [hkind, hkind, houtline]
  | module => rfl

/-! ### What is in the tables stays there -/

theorem Begun.run (hb : b.Begun) (es : List Event) : (b.run es).Begun := by
  induction es generalizing b with
  | nil => exact hb
  | cons e es ih => exact ih (hb.step e)

theorem getElem?_bindings_step {k : BindingId} {binding : Binding}
    (h : b.graph.bindings[k]? = some binding) (e : Event) :
    (b.step e).graph.bindings[k]? = some binding := by
  cases e with
  | declare d =>
      show (b.declare d).graph.bindings[k]? = some binding
      rcases declare_cases b d with heq | ⟨-, heq⟩
      · rw [heq]
        exact h
      · rw [heq]
        show (b.graph.bindings.push _)[k]? = some binding
        have hlt := (Array.getElem?_eq_some_iff.mp h).1
        rw [Array.getElem?_push, if_neg (Nat.ne_of_lt hlt), h]
  | _ => exact h

theorem getElem?_bindings_run {k : BindingId} {binding : Binding}
    (h : b.graph.bindings[k]? = some binding) (es : List Event) :
    (b.run es).graph.bindings[k]? = some binding := by
  induction es generalizing b with
  | nil => exact h
  | cons e es ih => exact ih (getElem?_bindings_step h e)

theorem own?_step_of_some (hb : b.Begun) {i : ScopeId} {name : String} {k : BindingId}
    (h : b.graph.own? i name = some k) (e : Event) :
    (b.step e).graph.own? i name = some k := by
  cases e with
  | enter kind s => exact (own?_enter kind s i name).trans h
  | declare d =>
      show (b.declare d).graph.own? i name = some k
      rcases declare_cases b d with heq | ⟨-, heq⟩
      · rw [heq]
        exact h
      · rw [heq, own?_withBinding (hb.home_lt d.target), h, Option.some_or]
  | _ => exact h

theorem own?_run_of_some (hb : b.Begun) {i : ScopeId} {name : String} {k : BindingId}
    (h : b.graph.own? i name = some k) (es : List Event) :
    (b.run es).graph.own? i name = some k := by
  induction es generalizing b with
  | nil => exact h
  | cons e es ih => exact ih (hb.step e) (own?_step_of_some hb h e)

/-- The declaration has a name that its home does not have. -/
def Lacks (b : Builder) (d : Declaration) : Prop :=
  d.name ≠ "" ∧ b.graph.own? (b.home d.target) d.name = none

theorem Lacks.declare {d : Declaration} (h : b.Lacks d) : b.declare d = b.withBinding d :=
  declare_entered (by simp [h.1, h.2])

theorem declare_of_not_lacks {d : Declaration} (h : ¬ b.Lacks d) : b.declare d = b := by
  refine declare_refused ?_
  by_cases hname : d.name = ""
  · exact .inl hname
  · exact .inr (Option.isSome_iff_ne_none.mpr fun hnone => h ⟨hname, hnone⟩)

/-- Declared or not, the home has the name afterwards. -/
theorem exists_own?_declare (hb : b.Begun) {d : Declaration} (hname : d.name ≠ "") :
    ∃ k, (b.declare d).graph.own? (b.home d.target) d.name = some k := by
  by_cases h : b.Lacks d
  · refine ⟨b.graph.bindings.size, ?_⟩
    rw [h.declare, own?_withBinding (hb.home_lt d.target), h.2, Option.none_or,
      if_pos ⟨rfl, rfl⟩]
  · rw [declare_of_not_lacks h]
    exact Option.ne_none_iff_exists'.mp fun hnone => h ⟨hname, hnone⟩

/-! ### Reading a pattern item by item -/

variable {source : String} {binder : Binder} {l : List Pattern.Item}

/-- The builder after some items of a pattern. -/
def meet (b : Builder) (source : String) (binder : Binder) (l : List Pattern.Item) : Builder :=
  b.run (l.flatMap (Pattern.Item.events source binder))

theorem meet_append (l l' : List Pattern.Item) :
    b.meet source binder (l ++ l') = (b.meet source binder l).meet source binder l' := by
  rw [meet, meet, meet, run, run, run, List.flatMap_append, List.foldl_append]

theorem meet_cons (item : Pattern.Item) (l : List Pattern.Item) :
    b.meet source binder (item :: l) =
      (b.run (item.events source binder)).meet source binder l := by
  rw [meet, meet, run, run, run, List.flatMap_cons, List.foldl_append]

theorem meet_pattern (b : Builder) (source : String) (binder : Binder) (steps : List PatternStep)
    (s : Site) : b.run (events source (.pattern binder steps) s) =
      b.meet source binder (Pattern.items source (.pattern binder steps) s) := by
  rw [meet, Pattern.events_pattern]

theorem stack_meet (b : Builder) (l : List Pattern.Item) :
    (b.meet source binder l).stack = b.stack := by
  induction l generalizing b with
  | nil => rfl
  | cons item l ih =>
      rw [meet_cons, ih]
      cases item with
      | name x reached => exact stack_declare _
      | value v => exact stack_run_events b source .value v

theorem Begun.meet (hb : b.Begun) (l : List Pattern.Item) : (b.meet source binder l).Begun :=
  hb.run _

/-- All names of a pattern have one home. -/
theorem home_meet (hb : b.Begun) (l : List Pattern.Item) (target : Target) :
    (b.meet source binder l).home target = b.home target :=
  home_run hb (stack_meet b l) target

/-- After a name has been met, its home has it. -/
theorem exists_own?_meet (hb : b.Begun) {y : Site} {reached : List PatternStep}
    (hmem : .name y reached ∈ l) (hy : y.text source ≠ "") :
    ∃ k, (b.meet source binder l).graph.own? (b.home binder.target) (y.text source) = some k := by
  obtain ⟨before, after, rfl⟩ := List.append_of_mem hmem
  have hmet : (b.meet source binder before).Begun := hb.meet before
  obtain ⟨k, hk⟩ := exists_own?_declare hmet (d := binder.declares source reached y) hy
  rw [home_meet hb] at hk
  refine ⟨k, ?_⟩
  rw [meet_append, meet_cons]
  exact own?_run_of_some (hmet.step (.declare _)) hk _

theorem bindingOf_congr {b' : Builder} {d : Declaration}
    (h : b.home d.target = b'.home d.target) : b.bindingOf d = b'.bindingOf d := by
  rw [bindingOf, bindingOf, h]

/-- A name that its home lacks when it is met is entered in the table, to stay there. -/
theorem exists_binding_meet (hb : b.Begun) {before : List Pattern.Item} {x : Site}
    {reached : List PatternStep}
    (hlacks : (b.meet source binder before).Lacks (binder.declares source reached x))
    (after : List Pattern.Item) :
    ∃ k, (b.meet source binder (before ++ .name x reached :: after)).graph.bindings[k]? =
        some (b.bindingOf (binder.declares source reached x)) ∧
      (b.meet source binder (before ++ .name x reached :: after)).graph.own?
        (b.home binder.target) (x.text source) = some k := by
  let met := b.meet source binder before
  have hmet : met.Begun := hb.meet before
  have hhome : met.home binder.target = b.home binder.target := home_meet hb before _
  have hdeclare := hlacks.declare
  have hbinding : (met.declare (binder.declares source reached x)).graph.bindings[
      met.graph.bindings.size]? = some (b.bindingOf (binder.declares source reached x)) := by
    rw [hdeclare, ← bindingOf_congr (b := met) hhome]
    exact Array.getElem?_push_size
  have hown : (met.declare (binder.declares source reached x)).graph.own? (b.home binder.target)
      (x.text source) = some met.graph.bindings.size := by
    have hnone : met.graph.own? (met.home binder.target) (x.text source) = none := hlacks.2
    rw [hdeclare, own?_withBinding (hmet.home_lt _), ← hhome, hnone, Option.none_or]
    exact if_pos ⟨rfl, rfl⟩
  rw [meet_append, meet_cons]
  exact ⟨_, getElem?_bindings_run hbinding _, own?_run_of_some (hmet.step (.declare _)) hown _⟩

/-- The entries that the items of a pattern add to the table: the names among them that their
home lacked, and what the values declare. -/
theorem bindings_meet (hb : b.Begun) (l : List Pattern.Item) {k : BindingId} {binding : Binding}
    (hnew : b.graph.bindings.size ≤ k)
    (hk : (b.meet source binder l).graph.bindings[k]? = some binding) :
    (∃ before x reached after, l = before ++ .name x reached :: after ∧
      (b.meet source binder before).Lacks (binder.declares source reached x) ∧
      binding = b.bindingOf (binder.declares source reached x)) ∨
    ∃ before v after, l = before ++ .value v :: after ∧
      (b.meet source binder before).graph.bindings.size ≤ k ∧
      k < (b.meet source binder (before ++ [.value v])).graph.bindings.size := by
  induction l using List.reverseRecOn generalizing binding with
  | nil =>
      have hlt : k < b.graph.bindings.size := (Array.getElem?_eq_some_iff.mp hk).1
      exact absurd hlt (Nat.not_lt.mpr hnew)
  | append_singleton l item ih =>
      let met := b.meet source binder l
      have hmeet : b.meet source binder (l ++ [item]) = met.run (item.events source binder) := by
        rw [meet_append, meet_cons]
        rfl
      have hlast := (Array.getElem?_eq_some_iff.mp hk).1
      rw [hmeet] at hk
      by_cases hlt : k < met.graph.bindings.size
      · -- The entry was there before the last item.
        have hbefore : met.graph.bindings[k]? = some binding := by
          have hthere := Array.getElem?_eq_getElem hlt
          rw [getElem?_bindings_run hthere] at hk
          rw [hthere, hk]
        rcases ih hbefore with ⟨before, x, reached, after, rfl, h⟩ | ⟨before, v, after, rfl, h⟩
        · exact .inl ⟨before, x, reached, after ++ [item], by simp, h⟩
        · exact .inr ⟨before, v, after ++ [item], by simp, h⟩
      · cases item with
        | value v => exact .inr ⟨l, v, [], rfl, Nat.not_lt.mp hlt, hlast⟩
        | name x reached =>
            left
            replace hk : (met.declare (binder.declares source reached x)).graph.bindings[k]? =
              some binding := hk
            by_cases hlacks : met.Lacks (binder.declares source reached x)
            · refine ⟨l, x, reached, [], rfl, hlacks, ?_⟩
              rw [hlacks.declare] at hk
              replace hk : (met.graph.bindings.push (met.bindingOf _))[k]? = some binding := hk
              rw [Array.getElem?_push] at hk
              split at hk
              · rw [← bindingOf_congr (b := met) (home_meet hb l _)]
                exact (Option.some.inj hk).symm
              · exact absurd (Array.getElem?_eq_some_iff.mp hk).1 hlt
            · rw [declare_of_not_lacks hlacks] at hk
              exact absurd (Array.getElem?_eq_some_iff.mp hk).1 hlt

end Builder

/-! ### The names of a pattern -/

namespace Pattern

/-- What reading the pattern `s`, reached by the steps, adds to the bindings of a builder. -/
structure Declares (source : String) (binder : Binder) (steps : List PatternStep) (s : Site)
    (b : Builder) : Prop where
  /-- The bindings that were there stay as they are. -/
  kept : ∀ (k : BindingId) (binding : Binding), b.graph.bindings[k]? = some binding →
    (b.run (events source (.pattern binder steps) s)).graph.bindings[k]? = some binding
  /-- A new binding is that of a name of the pattern, the first one with its text, and has the
  steps followed by the address of the name; or a default or a computed key declares it. -/
  added : ∀ (k : BindingId) (binding : Binding), b.graph.bindings.size ≤ k →
    (b.run (events source (.pattern binder steps) s)).graph.bindings[k]? = some binding →
    (∃ before x address after,
      items source (.pattern binder steps) s = before ++ .name x (steps ++ address) :: after ∧
      Address source s x address ∧ IsName x ∧
      (∀ y reached, .name y reached ∈ before → y.text source ≠ x.text source) ∧
      binding =
        { name := x.text source, kind := binder.kind, scope := b.home binder.target, ident := x
          declaration := binder.declaration, init := binder.init, pattern := steps ++ address }) ∨
    ∃ before v after, items source (.pattern binder steps) s = before ++ .value v :: after ∧
      (b.meet source binder before).graph.bindings.size ≤ k ∧
      k < (b.meet source binder (before ++ [.value v])).graph.bindings.size
  /-- A name that its scope does not have when it is met is bound from then on. -/
  bound : ∀ before x reached after,
    items source (.pattern binder steps) s = before ++ .name x reached :: after →
    x.text source ≠ "" →
    (b.meet source binder before).graph.own? (b.home binder.target) (x.text source) = none →
    ∃ k, (b.run (events source (.pattern binder steps) s)).graph.own? (b.home binder.target)
        (x.text source) = some k ∧
      (b.run (events source (.pattern binder steps) s)).graph.bindings[k]? =
        some (b.bindingOf (binder.declares source reached x))
  /-- A name that stands in the pattern a second time is passed over. -/
  passed : ∀ before x reached after,
    items source (.pattern binder steps) s = before ++ .name x reached :: after →
    (∃ y earlier, .name y earlier ∈ before ∧ y.text source = x.text source) →
    b.meet source binder (before ++ [.name x reached]) = b.meet source binder before

theorem not_lacks_of_mem {source : String} {binder : Binder} {b : Builder} (hb : b.Begun)
    {before : List Item} {x y : Site} {reached earlier : List PatternStep}
    (hmem : .name y earlier ∈ before) (htext : y.text source = x.text source) :
    ¬ (b.meet source binder before).Lacks (binder.declares source reached x) := by
  intro hlacks
  have hname : x.text source ≠ "" := hlacks.1
  have hhome : (b.meet source binder before).home binder.target = b.home binder.target :=
    Builder.home_meet hb before _
  have hnone : (b.meet source binder before).graph.own? (b.home binder.target)
      (x.text source) = none := hhome ▸ hlacks.2
  obtain ⟨k, hk⟩ := Builder.exists_own?_meet hb hmem (htext ▸ hname)
  rw [htext, hnone] at hk
  contradiction

theorem declares_pattern (source : String) (binder : Binder) (steps : List PatternStep) (s : Site)
    {b : Builder} (hb : b.Begun) : Declares source binder steps s b where
  kept k binding hk := Builder.getElem?_bindings_run hk _
  added k binding hnew hk := by
    rw [Builder.meet_pattern] at hk
    rcases Builder.bindings_meet hb _ hnew hk with
      ⟨before, x, reached, after, hsplit, hlacks, hbinding⟩ | h
    · have hmem : .name x reached ∈ items source (.pattern binder steps) s := by
        rw [hsplit]
        exact List.mem_append_right _ List.mem_cons_self
      obtain ⟨address, rfl, haddress, hx⟩ := name_mem_items.mp hmem
      refine .inl ⟨before, x, address, after, hsplit, haddress, hx, ?_, hbinding⟩
      intro y earlier hy htext
      exact not_lacks_of_mem hb hy htext hlacks
    · exact .inr h
  bound before x reached after hsplit hname hnone := by
    have hlacks : (b.meet source binder before).Lacks (binder.declares source reached x) := by
      refine ⟨hname, ?_⟩
      rw [Builder.home_meet hb]
      exact hnone
    obtain ⟨k, hbinding, hown⟩ := Builder.exists_binding_meet hb hlacks after
    rw [Builder.meet_pattern, hsplit]
    exact ⟨k, hown, hbinding⟩
  passed before x reached after hsplit hagain := by
    obtain ⟨y, earlier, hmem, htext⟩ := hagain
    rw [Builder.meet_append]
    exact Builder.declare_of_not_lacks (not_lacks_of_mem hb hmem htext)

/-- Positions in a pattern are exact: the stack of steps is left as it was found, the names and
values met are those that addresses lead to, and the names are bound at their addresses, each
text once. -/
theorem positions_exact (source : String) (binder : Binder) (steps : List PatternStep) (s : Site)
    (b : Builder) (hb : b.Begun) :
    (walk source (.pattern binder []) s).run steps =
      (events source (.pattern binder steps) s, steps) ∧
    (∀ x reached, .name x reached ∈ items source (.pattern binder steps) s ↔
      ∃ address, reached = steps ++ address ∧ Address source s x address ∧ IsName x) ∧
    (∀ v, .value v ∈ items source (.pattern binder steps) s ↔
      ∃ t address, Address source s t address ∧ Aside t v) ∧
    Declares source binder steps s b :=
  ⟨run_walk source binder s steps, fun _ _ => name_mem_items, fun _ => value_mem_items,
    declares_pattern source binder steps s hb⟩

/-- The pattern of `[, { "k": a = 1, ...a }, a]`. -/
def thriceNamed : Tree :=
  .node ⟨0, "array_pattern", .arrayPattern, true, false, [], 0, 25⟩
    [.node ⟨1, "[", .other, false, false, [], 0, 1⟩ [],
    .node ⟨2, ",", .comma, false, false, [], 1, 2⟩ [],
    .node ⟨3, "object_pattern", .objectPattern, true, false, [], 3, 21⟩
      [.node ⟨4, "pair_pattern", .pairPattern, true, false, [], 4, 14⟩
        [.node ⟨5, "string", .string, true, false, [.key], 4, 7⟩ [],
        .node ⟨6, "assignment_pattern", .assignmentPattern, true, false, [.value], 9, 14⟩
          [.node ⟨7, "identifier", .identifier, true, false, [.left], 9, 10⟩ [],
          .node ⟨8, "number", .other, true, false, [.right], 13, 14⟩ []]],
      .node ⟨9, ",", .comma, false, false, [], 14, 15⟩ [],
      .node ⟨10, "rest_pattern", .restPattern, true, false, [], 16, 20⟩
        [.node ⟨11, "identifier", .identifier, true, false, [], 19, 20⟩ []]],
    .node ⟨12, ",", .comma, false, false, [], 21, 22⟩ [],
    .node ⟨13, "identifier", .identifier, true, false, [], 23, 24⟩ []]

def thriceNamedSource : String := "[, \x7b\"k\": a = 1, ...a\x7d, a]"

def thriceNamedBinder : Binder :=
  { kind := .variable .constVar, target := .current, declaration := Site.root thriceNamed }

/-- Of the three names only the first is bound: the property of the second element. -/
theorem positions_exact_thriceNamed :
    (Graph.entered thriceNamed).Begun ∧
    Declares thriceNamedSource thriceNamedBinder [.rest] (Site.root thriceNamed)
      (Graph.entered thriceNamed) ∧
    ((Graph.entered thriceNamed).run (events thriceNamedSource
      (.pattern thriceNamedBinder [.rest]) (Site.root thriceNamed))).graph.bindings.map
        (fun binding => (binding.name, binding.ident.id, binding.pattern)) =
      #[("a", 7, [.rest, .index 1, .key "k"])] :=
  ⟨Graph.begun_entered _, (positions_exact _ _ _ _ _ (Graph.begun_entered _)).2.2.2,
    by decide +kernel⟩

end Pattern

end HookLint.Scope

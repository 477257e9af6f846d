/-
Reading a tree for names, with the regions around every event.

The events of a tree form one flat list in which regions are entered and left.
`traced` puts beside every event the sites of the regions open around it, innermost
first.  Three facts about `expand` say all that is needed of it:

  * `expand_layout`: a site contributes a region of its own at most, and all it
    contributes besides a name stands inside of it;
  * `expand_leads`: what it leads to is a child, or a child of a child that is passed
    over, and what it refers to lies below it, unless it is a name itself;
  * regions are closed again (`events_shift`), so what a site contributes does not
    depend on what was read before it.

Together they give `mem_traced_events`: an event of a site is one the site emits
itself, or an event of a site it leads to, with the regions open there.
-/
import HookLint.Proofs.Contributions

namespace HookLint.Scope

open HookLint.Syntax

/-! ### The states along a fold -/

/-- The elements of a list, each with the state a fold has reached before it. -/
def stages {σ α : Type} (f : σ → α → σ) : σ → List α → List (σ × α)
  | _, [] => []
  | s, a :: as => (s, a) :: stages f (f s a) as

section Stages

variable {σ τ α : Type} {f : σ → α → σ}

theorem stages_append (s : σ) (as bs : List α) :
    stages f s (as ++ bs) = stages f s as ++ stages f (as.foldl f s) bs := by
  induction as generalizing s with
  | nil => rfl
  | cons a as ih => rw [List.cons_append, stages, stages, ih, List.cons_append, List.foldl_cons]

/-- A map between states that respects the steps takes stages to stages. -/
theorem map_stages {g : τ → α → τ} (h : σ → τ) (P : σ → Prop)
    (hP : ∀ s a, P s → P (f s a)) (hfg : ∀ s a, P s → h (f s a) = g (h s) a) :
    ∀ (l : List α) (s : σ), P s → (stages f s l).map (Prod.map h id) = stages g (h s) l := by
  intro l
  induction l with
  | nil => intro s _; rfl
  | cons a as ih =>
      intro s hs
      rw [stages, List.map_cons, ih _ (hP s a hs), hfg s a hs, stages]
      rfl

/-- What every step keeps holds at every stage. -/
theorem stages_inv (P : σ → Prop) (hP : ∀ s a, P s → P (f s a)) :
    ∀ (l : List α) (s : σ), P s → ∀ p ∈ stages f s l, P p.1 := by
  intro l
  induction l with
  | nil => intro s _ p hp; contradiction
  | cons a as ih =>
      intro s hs p hp
      rcases List.mem_cons.mp hp with rfl | hp
      · exact hs
      · exact ih _ (hP s a hs) p hp

theorem map_snd_stages (s : σ) (l : List α) : (stages f s l).map (·.2) = l := by
  induction l generalizing s with
  | nil => rfl
  | cons a as ih => rw [stages, List.map_cons, ih]

/-- Where no step changes the state, every stage has the state of the start. -/
theorem stages_of_fixed {s : σ} {l : List α} (h : ∀ a ∈ l, f s a = s) :
    stages f s l = l.map (s, ·) := by
  induction l with
  | nil => rfl
  | cons a as ih =>
      rw [stages, h a List.mem_cons_self, ih fun b hb => h b (List.mem_cons_of_mem _ hb),
        List.map_cons]

theorem foldl_of_fixed {s : σ} {l : List α} (h : ∀ a ∈ l, f s a = s) : l.foldl f s = s := by
  induction l with
  | nil => rfl
  | cons a as ih =>
      rw [List.foldl_cons, h a List.mem_cons_self]
      exact ih fun b hb => h b (List.mem_cons_of_mem _ hb)

end Stages

/-! ### Regions around events -/

/-- The regions open after an event, innermost first. -/
def Event.shift (inside : List Site) : Event → List Site
  | .enter _ s => s :: inside
  | .leave => inside.tail
  | .declare _ => inside
  | .refer _ _ _ => inside

/-- The regions open after a contribution; a site that is visited leaves none open. -/
def Step.shift (inside : List Site) : Step → List Site
  | .emit e => e.shift inside
  | .visit _ _ => inside

/-- Events, each with the regions open around it. -/
def traced (inside : List Site) (es : List Event) : List (List Site × Event) :=
  stages Event.shift inside es

/-- The events a contribution stands for. -/
def Step.events (source : String) : Step → List Event
  | .emit e => [e]
  | .visit r c => Scope.events source r c

theorem events_eq (source : String) (role : Role) (s : Site) :
    events source role s = (expand source role s).flatMap (Step.events source) := by
  rw [events]
  conv_rhs => rw [← List.attach_map_subtype_val (expand source role s), List.flatMap_map]
  congr 1
  funext ⟨step, h⟩
  cases step <;> rfl

/-- What holds of a site in a role whenever it holds of all that the site leads to, holds of every
site. -/
theorem expand_induction (source : String) {motive : Role → Site → Prop}
    (step : ∀ role s, (∀ r c, .visit r c ∈ expand source role s → motive r c) → motive role s)
    (role : Role) (s : Site) : motive role s := by
  induction hn : sizeOf s.tree using Nat.strong_induction_on generalizing role s with
  | _ n ih => exact step role s fun r c hc => ih _ (hn ▸ expand_within hc) r c rfl

/-! ### The shape of a contribution -/

/-- Neither enters nor leaves a region. -/
def Step.Quiet : Step → Prop
  | .emit (.enter _ _) => False
  | .emit .leave => False
  | .emit (.declare _) => True
  | .emit (.refer _ _ _) => True
  | .visit _ _ => True

theorem Step.Quiet.shift_eq {step : Step} (h : step.Quiet) (inside : List Site) :
    step.shift inside = inside := by
  match step, h with
  | .emit (.declare _), _ => rfl
  | .emit (.refer _ _ _), _ => rfl
  | .visit _ _, _ => rfl

/-- Contributions of `s`: quiet ones, and regions of `s` around quiet ones. -/
inductive Shape (s : Site) : List Step → Prop
  | quiet {steps : List Step} (h : ∀ x ∈ steps, x.Quiet) : Shape s steps
  | region (kind : ScopeKind) {steps : List Step} (h : ∀ x ∈ steps, x.Quiet) :
      Shape s (region kind s steps)
  | append {as bs : List Step} (ha : Shape s as) (hb : Shape s bs) : Shape s (as ++ bs)

theorem quiet_visits {l : List Site} {role : Role} : ∀ x ∈ l.map (Step.visit role), x.Quiet :=
  List.forall_mem_map.mpr fun _ _ => trivial

section Quiet

variable {source : String} {s : Site}

theorem quiet_fieldSteps {role : Role} {f : Field} : ∀ x ∈ fieldSteps role f s, x.Quiet :=
  forall_mem_fieldSteps fun _ _ => trivial

theorem quiet_nameSteps {kind : BindingKind} : ∀ x ∈ nameSteps source kind s, x.Quiet :=
  forall_mem_nameSteps fun _ _ => trivial

/-- A site that opens no region enters and leaves none. -/
theorem quiet_expand {role : Role} (h : role.isExpression = true → opensRegion s.kind = false) :
    ∀ x ∈ expand source role s, x.Quiet := by
  intro x hx
  cases offers_of_mem_expand hx with
  | enter _ hrole hs => exact absurd hs (by simp [h hrole])
  | leave hrole hs => exact absurd hs (by simp [h hrole])
  | _ => trivial

/-- What stands inside the region of a function. -/
def functionBody (source : String) (s : Site) : List Step :=
  let binder : Binder := { kind := .parameter, target := .current, declaration := s }
  (if s.kind = .functionExpression then nameSteps source .functionName s else []) ++
    fieldSteps (.pattern binder []) .parameter s ++
    (match s.field? .parameters with
      | some ps => ps.namedChildren.map (.visit (.pattern binder []))
      | none => []) ++
    (match s.field? .body with
      | some body =>
        if body.kind = .statementBlock then childSteps body else [.visit .value body]
      | none => [])

theorem functionSteps_eq (source : String) (s : Site) :
    functionSteps source s = region .function s (functionBody source s) := rfl

theorem quiet_functionBody : ∀ x ∈ functionBody source s, x.Quiet := by
  unfold functionBody
  simp only [List.forall_mem_append]
  refine ⟨⟨⟨?_, quiet_fieldSteps⟩, ?_⟩, ?_⟩
  · split
    · exact quiet_nameSteps
    · exact List.forall_mem_nil _
  · split
    · exact quiet_visits
    · exact List.forall_mem_nil _
  · split
    · split
      · exact quiet_visits
      · exact List.forall_mem_singleton.mpr trivial
    · exact List.forall_mem_nil _

/-! ### What stands outside of a region -/

/-- `n` is the computed name of the method `m`. -/
structure ComputesName (m n : Site) : Prop where
  kind : m.kind = .method
  name : m.field? .name = some n
  computed : n.kind = .computedName

/-- What a site may contribute before it opens a region: a name it declares, or the computed
name of a method. -/
def Step.Outside (s : Site) : Step → Prop
  | .emit (.declare _) => True
  | .visit _ c => ComputesName s c
  | _ => False

theorem Step.Outside.quiet {step : Step} (h : step.Outside s) : step.Quiet := by
  match step, h with
  | .emit (.declare _), _ => trivial
  | .visit _ _, _ => trivial

/-- All contributions of `s`: quiet ones, or one region of `s` with little before it. -/
inductive Layout (source : String) (s : Site) : List Step → Prop
  | plain {steps : List Step} (h : ∀ x ∈ steps, x.Quiet) : Layout source s steps
  | region (kind : ScopeKind) {before steps : List Step} (hbefore : ∀ x ∈ before, x.Outside s)
      (h : ∀ x ∈ steps, x.Quiet) (hbody : kind = .function → steps = functionBody source s) :
      Layout source s (before ++ region kind s steps)

theorem Layout.shape {steps : List Step} (h : Layout source s steps) : Shape s steps := by
  cases h with
  | plain h => exact .quiet h
  | region kind hbefore h _ =>
      exact .append (.quiet fun x hx => (hbefore x hx).quiet) (.region kind h)

/-- A region with nothing before it. -/
theorem Layout.enclosed (kind : ScopeKind) {steps : List Step} (h : ∀ x ∈ steps, x.Quiet)
    (hbody : kind = .function → steps = functionBody source s) :
    Layout source s (Scope.region kind s steps) :=
  @Layout.region source s kind [] steps (fun _ hx => by contradiction) h hbody

/-- A function, with what its name contributes. -/
theorem layout_functionSteps {before : List Step} (hbefore : ∀ x ∈ before, x.Outside s) :
    Layout source s (before ++ functionSteps source s) :=
  .region .function hbefore quiet_functionBody fun _ => rfl

theorem outside_nameSteps {kind : BindingKind} : ∀ x ∈ nameSteps source kind s, x.Outside s :=
  forall_mem_nameSteps fun _ _ => trivial

theorem outside_computedKeySteps (hs : s.kind = .method) :
    ∀ x ∈ computedKeySteps .name s, x.Outside s :=
  forall_mem_computedKeySteps fun _ hkey hcomputed => ⟨hs, hkey, hcomputed⟩

theorem layout_forInSteps : Layout source s (forInSteps source s) := by
  refine .enclosed .loop (List.forall_mem_append.mpr ⟨List.forall_mem_append.mpr
    ⟨?_, quiet_fieldSteps⟩, quiet_fieldSteps⟩) (by simp)
  split <;> exact quiet_fieldSteps

theorem layout_expandValue (hs : opensRegion s.kind = true) :
    Layout source s (expandValue source s) := by
  unfold expandValue
  split
  all_goals try (simp [*, opensRegion] at hs; done)
  · exact layout_functionSteps outside_nameSteps
  · exact .enclosed .function quiet_functionBody fun _ => rfl
  · exact .enclosed .function quiet_functionBody fun _ => rfl
  · exact layout_functionSteps (outside_computedKeySteps ‹_›)
  · split
    · exact .enclosed _ (List.forall_mem_append.mpr ⟨quiet_nameSteps, quiet_visits⟩) (by simp)
    · exact .plain quiet_visits
  · exact .enclosed _ quiet_visits (by simp)
  · exact .enclosed _ quiet_visits (by simp)
  · exact .enclosed _ quiet_visits (by simp)
  · exact layout_forInSteps
  · exact .enclosed _ (List.forall_mem_append.mpr ⟨quiet_fieldSteps, quiet_fieldSteps⟩) (by simp)

/-- A node that opens a region is no pattern, so it is read as a value where it is a target. -/
theorem expand_of_opensRegion {role : Role} (hrole : role.isExpression = true)
    (hs : opensRegion s.kind = true) : expand source role s = expandValue source s := by
  cases role with
  | value => rfl
  | target access =>
      rw [expand]
      unfold expandTarget
      split
      all_goals try (simp [*, opensRegion] at hs; done)
      rfl
  | _ => contradiction

/-- Whatever a site is read as, it opens one region at most, around all but a name. -/
theorem expand_layout (source : String) (role : Role) (s : Site) :
    Layout source s (expand source role s) := by
  by_cases hopens : role.isExpression = true ∧ opensRegion s.kind = true
  · rw [expand_of_opensRegion hopens.1 hopens.2]
    exact layout_expandValue hopens.2
  · refine .plain (quiet_expand fun hrole => ?_)
    simpa [hrole] using hopens

/-- The only region a site opens is its own. -/
theorem expand_shape (role : Role) (s : Site) : Shape s (expand source role s) :=
  (expand_layout source role s).shape

end Quiet

theorem Shape.foldl_shift {s : Site} {steps : List Step} (h : Shape s steps) (inside : List Site) :
    steps.foldl Step.shift inside = inside := by
  induction h with
  | quiet h => exact foldl_of_fixed fun x hx => (h x hx).shift_eq inside
  | region kind h =>
      rw [Scope.region, List.foldl_cons, List.foldl_append,
        foldl_of_fixed fun x hx => (h x hx).shift_eq _]
      rfl
  | append _ _ iha ihb => rw [List.foldl_append, iha, ihb]

/-- The stages of a region: its opening, what stands inside, its closing. -/
theorem stages_region {s : Site} {kind : ScopeKind} {steps : List Step}
    (h : ∀ x ∈ steps, x.Quiet) (inside : List Site) :
    stages Step.shift inside (region kind s steps) =
      (inside, .emit (.enter kind s)) ::
        (steps.map (s :: inside, ·) ++ [(s :: inside, .emit .leave)]) := by
  have hfix : ∀ x ∈ steps, Step.shift (s :: inside) x = s :: inside :=
    fun x hx => (h x hx).shift_eq _
  rw [region, stages, stages_append]
  show _ :: (stages Step.shift (s :: inside) steps ++
    stages Step.shift (steps.foldl Step.shift (s :: inside)) _) = _
  rw [stages_of_fixed hfix, foldl_of_fixed hfix]
  rfl

/-- A contribution stands directly outside of the region of its site, or inside it. -/
theorem Shape.stage_cases {s : Site} {steps : List Step} (h : Shape s steps) {inside : List Site}
    {p : List Site × Step} (hp : p ∈ stages Step.shift inside steps) :
    p.1 = inside ∨ p.1 = s :: inside := by
  induction h with
  | quiet h =>
      rw [stages_of_fixed fun x hx => (h x hx).shift_eq inside] at hp
      obtain ⟨x, -, rfl⟩ := List.mem_map.mp hp
      exact Or.inl rfl
  | region kind h =>
      rw [stages_region h] at hp
      rcases List.mem_cons.mp hp with rfl | hp
      · exact Or.inl rfl
      · rcases List.mem_append.mp hp with hp | hp
        · obtain ⟨x, -, rfl⟩ := List.mem_map.mp hp
          exact Or.inr rfl
        · rw [List.mem_singleton.mp hp]
          exact Or.inr rfl
  | append ha _ iha ihb =>
      rw [stages_append, ha.foldl_shift] at hp
      rcases List.mem_append.mp hp with hp | hp
      · exact iha hp
      · exact ihb hp

/-- A site that opens a region has all its contributions in it, but for a name before it. -/
theorem Layout.of_enter {source : String} {s t : Site} {steps : List Step}
    (h : Layout source s steps) {kind : ScopeKind} (henter : .emit (.enter kind t) ∈ steps) :
    ∃ before inner, steps = before ++ Scope.region kind s inner ∧ (∀ x ∈ before, x.Outside s) ∧
      (∀ x ∈ inner, x.Quiet) ∧ (kind = .function → inner = functionBody source s) := by
  cases h with
  | plain h => exact (h _ henter).elim
  | @region kind' before inner hbefore hinner hbody =>
      have hkind : kind = kind' := by
        rcases List.mem_append.mp henter with hmem | hmem
        · exact (hbefore _ hmem).elim
        · rcases List.mem_cons.mp hmem with heq | hmem
          · injection heq with heq
            injection heq
          · rcases List.mem_append.mp hmem with hmem | hmem
            · exact (hinner _ hmem).elim
            · injection List.mem_singleton.mp hmem with heq
              contradiction
      subst hkind
      exact ⟨before, inner, rfl, hbefore, hinner, hbody⟩

/-- What a site that opens a region contributes, with the regions around it. -/
theorem Layout.stage_cases {source : String} {s t : Site} {steps : List Step}
    (h : Layout source s steps) {kind : ScopeKind} (henter : .emit (.enter kind t) ∈ steps)
    {inside : List Site} {p : List Site × Step} (hp : p ∈ stages Step.shift inside steps) :
    p = (inside, .emit (.enter kind s)) ∨ p = (s :: inside, .emit .leave) ∨
      p.2.Quiet ∧ (p.1 = s :: inside ∨ p.1 = inside ∧ p.2.Outside s) := by
  obtain ⟨before, inner, rfl, hbefore, hinner, -⟩ := h.of_enter henter
  have hfix : ∀ x ∈ before, x.shift inside = inside :=
    fun x hx => (hbefore x hx).quiet.shift_eq inside
  rw [stages_append, stages_of_fixed hfix, foldl_of_fixed hfix, stages_region hinner] at hp
  rcases List.mem_append.mp hp with hp | hp
  · obtain ⟨x, hx, rfl⟩ := List.mem_map.mp hp
    exact Or.inr (Or.inr ⟨(hbefore x hx).quiet, Or.inr ⟨rfl, hbefore x hx⟩⟩)
  · rcases List.mem_cons.mp hp with rfl | hp
    · exact Or.inl rfl
    · rcases List.mem_append.mp hp with hp | hp
      · obtain ⟨x, hx, rfl⟩ := List.mem_map.mp hp
        exact Or.inr (Or.inr ⟨hinner x hx, Or.inl rfl⟩)
      · exact Or.inr (Or.inl (List.mem_singleton.mp hp))

/-! ### Where a contribution leads -/

/-- What a contribution of `s` can be. -/
inductive Leads (source : String) (s : Site) : Step → Prop
  | enter (kind : ScopeKind) : Leads source s (.emit (.enter kind s))
  | leave : Leads source s (.emit .leave)
  | declare (d : Declaration) : Leads source s (.emit (.declare d))
  | refer {x : Site} (access : Access) (hx : Site.Under s x) (hk : isNameKind x.kind = true) :
      Leads source s (.emit (.refer (x.text source) x access))
  | child (role : Role) {c : Site} (hc : c ∈ s.children) : Leads source s (.visit role c)
  /-- a node between is passed over -/
  | grandchild (role : Role) {d c : Site} (hd : d ∈ s.children) (hc : c ∈ d.children)
      (h : role.isPattern = true ∨ isPassedOver d.kind = true) : Leads source s (.visit role c)

theorem expand_leads {source : String} {s : Site} {role : Role} {x : Step}
    (h : x ∈ expand source role s) : Leads source s x := by
  have hvisit {r : Role} {c : Site} (hc : Adjoins s c) : Leads source s (.visit r c) := by
    cases hc with
    | child hc => exact .child r hc
    | past hd hpassed hc => exact .grandchild r hd hc (Or.inr hpassed)
  cases offers_of_mem_expand h with
  | enter kind => exact .enter kind
  | leave => exact .leave
  | declare d => exact .declare d
  | refer access hk => exact .refer access (.self s) hk
  | write hk hx => exact .refer _ hx.adjoins.under hk
  | value hc => exact hvisit hc
  | elementName hc => exact hvisit hc
  | elementObject hc => exact hvisit hc
  | target _ hc => exact hvisit hc.adjoins
  | pattern _ _ hc => exact hvisit hc
  | parameter _ _ hps hc =>
      exact .grandchild _ (Site.mem_children_of_field? hps) hc (Or.inl rfl)

/-- A site that is led to stands below. -/
theorem Leads.under {source : String} {s c : Site} {role : Role}
    (h : Leads source s (.visit role c)) : ∃ d ∈ s.children, Site.Under d c := by
  cases h with
  | child _ hc => exact ⟨c, hc, .self c⟩
  | grandchild _ hd hc _ => exact ⟨_, hd, .of_child hc⟩

/-! ### Every region is left again -/

theorem foldl_flatMap_events {source : String} {steps : List Step}
    (h : ∀ r c, Step.visit r c ∈ steps → ∀ inside,
      (events source r c).foldl Event.shift inside = inside) (inside : List Site) :
    (steps.flatMap (Step.events source)).foldl Event.shift inside =
      steps.foldl Step.shift inside := by
  induction steps generalizing inside with
  | nil => rfl
  | cons x xs ih =>
      have hrest := ih fun r c hmem => h r c (List.mem_cons_of_mem _ hmem)
      rw [List.flatMap_cons, List.foldl_append, List.foldl_cons, hrest]
      congr 1
      cases x with
      | emit e => rfl
      | visit r c => exact h r c List.mem_cons_self inside

/-- Reading a site leaves the regions open that were open before. -/
theorem events_shift (source : String) (role : Role) (s : Site) (inside : List Site) :
    (events source role s).foldl Event.shift inside = inside := by
  induction role, s using expand_induction source generalizing inside with
  | step role s ih => rw [events_eq, foldl_flatMap_events ih, (expand_shape role s).foldl_shift]

/-! ### Where an event comes from -/

/-- The events of a contribution, with the regions open around them. -/
def Step.traced (source : String) (p : List Site × Step) : List (List Site × Event) :=
  Scope.traced p.1 (p.2.events source)

theorem traced_flatMap (source : String) (steps : List Step) (inside : List Site) :
    traced inside (steps.flatMap (Step.events source)) =
      (stages Step.shift inside steps).flatMap (Step.traced source) := by
  induction steps generalizing inside with
  | nil => rfl
  | cons x xs ih =>
      rw [List.flatMap_cons, stages, List.flatMap_cons, ← ih, traced, stages_append]
      congr 1
      show stages _ _ _ = stages _ _ _
      congr 1
      cases x with
      | emit e => rfl
      | visit r c => exact events_shift source r c inside

theorem traced_events (source : String) (role : Role) (s : Site) (inside : List Site) :
    traced inside (events source role s) =
      (stages Step.shift inside (expand source role s)).flatMap (Step.traced source) := by
  rw [events_eq, traced_flatMap]

/-- An event of a site is one it emits, or one of a site it leads to. -/
theorem mem_traced_events {source : String} {role : Role} {s : Site} {inside : List Site}
    {p : List Site × Event} :
    p ∈ traced inside (events source role s) ↔
      (p.1, .emit p.2) ∈ stages Step.shift inside (expand source role s) ∨
      ∃ inside' r c, (inside', .visit r c) ∈ stages Step.shift inside (expand source role s) ∧
        p ∈ traced inside' (events source r c) := by
  rw [traced_events, List.mem_flatMap]
  constructor
  · rintro ⟨⟨inside', step⟩, hstep, hp⟩
    cases step with
    | emit e =>
        rw [Step.traced, Step.events, traced, stages, stages, List.mem_singleton] at hp
        subst hp
        exact Or.inl hstep
    | visit r c => exact Or.inr ⟨inside', r, c, hstep, hp⟩
  · rintro (h | ⟨inside', r, c, hstep, hp⟩)
    · exact ⟨_, h, List.mem_singleton_self _⟩
    · exact ⟨_, hstep, hp⟩

theorem mem_of_mem_stages {σ α : Type} {f : σ → α → σ} {s : σ} {l : List α} {p : σ × α}
    (h : p ∈ stages f s l) : p.2 ∈ l := by
  rw [← map_snd_stages (f := f) s l]
  exact List.mem_map.mpr ⟨p, h, rfl⟩

end HookLint.Scope

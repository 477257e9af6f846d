/-
Reading a tree whose sites have moved.

A relocation says where each site of a tree is found in another tree, and what the
numbers of the nodes have become.  `Keeps` lists what is asked of a site that is read
for names.  Where a relocation keeps all of it, a site contributes what it
contributed, at the new places (`expand_site`).

A builder does at the new places what it did at the old ones, whatever the relocation
(`run_builder`), and so does the resolution of references (`resolve_graph`).
-/
import HookLint.Proofs.Building
import Mathlib.Data.List.Basic

namespace HookLint.Syntax

/-! ### Texts that are read -/

/-- Kinds of node whose own text is read. -/
def Kind.isSpelled : Kind → Bool
  | .identifier | .shorthandProperty | .shorthandPattern | .string => true
  | _ => false

/-- Kinds of declaration that spell a name in a field. -/
def Kind.spellsName : Kind → Bool
  | .functionDeclaration | .functionExpression | .classDeclaration | .classExpression
  | .enumDeclaration => true
  | _ => false

/-- The text of the site is read, as a name, a key or a keyword. -/
def Site.isSpelled (s : Site) : Bool :=
  s.kind.isSpelled || s.label.fields.contains .property || s.label.fields.contains .kind ||
    s.label.fields.contains .alias || (s.label.fields.contains .key && s.kind != .computedName) ||
    s.parent?.any fun p =>
      (p.kind.spellsName && s.label.fields.contains .name) || p.kind == .importRequire ||
        p.parent?.any (·.kind == .namedImports)

theorem Site.isSpelled_of_kind {s : Site} (h : s.kind.isSpelled = true) : s.isSpelled = true := by
  simp [Site.isSpelled, h]

/-- The fields whose text is read. -/
theorem Site.isSpelled_of_field {s c : Site} {f : Field} (h : s.field? f = some c)
    (hfield : f = .property ∨ f = .kind ∨ f = .alias ∨ f = .key ∧ c.kind ≠ .computedName ∨
      f = .name ∧ s.kind.spellsName = true) : c.isSpelled = true := by
  have hfills : c.label.fields.contains f = true := (List.find?_some h :)
  have hparent := Site.parent?_of_mem_children (Site.mem_children_of_field? h)
  unfold Site.isSpelled
  rcases hfield with rfl | rfl | rfl | ⟨rfl, hk⟩ | ⟨rfl, hk⟩
  · simp only [hfills, Bool.or_true, Bool.true_or]
  · simp only [hfills, Bool.or_true, Bool.true_or]
  · simp only [hfills, Bool.or_true, Bool.true_or]
  · simp only [hfills, bne_iff_ne.mpr hk, Bool.and_true, Bool.or_true, Bool.true_or]
  · simp only [hparent, Option.any_some, hfills, hk, Bool.and_true, Bool.or_true, Bool.true_or]

/-- The names an import binds are read. -/
theorem Site.isSpelled_of_import {s c : Site} (h : c ∈ s.children)
    (himport : s.kind = .importRequire ∨ ∃ p : Site, s ∈ p.children ∧ p.kind = .namedImports) :
    c.isSpelled = true := by
  unfold Site.isSpelled
  rw [Site.parent?_of_mem_children h, Option.any_some]
  rcases himport with hk | ⟨p, hp, hk⟩
  · simp [hk]
  · simp [Site.parent?_of_mem_children hp, hk]

/-! ### Kinds of node -/

/-- Kinds of node an array stands in that is, or is wrapped into, an argument. -/
def Kind.holdsArgument : Kind → Bool
  | .arguments | .parenthesized | .assertion | .typeAssertion | .error => true
  | _ => false

/-- Kinds of node of which the first named child is read, be it a comment or not. -/
def Kind.readsFirst : Kind → Bool
  | .restPattern | .importRequire | .member | .nestedIdentifier => true
  | _ => false

end HookLint.Syntax

namespace HookLint.Scope

open HookLint.Syntax

/-- Where the sites of a tree have gone. -/
structure Relocation where
  site : Site → Site
  /-- the new numbers of the nodes -/
  number : Nat → Nat
  id_site : ∀ s, (site s).id = number s.id

namespace Relocation

variable (m : Relocation)

/-! ### What is read, at its new place -/

def binder (b : Binder) : Binder :=
  { b with declaration := m.site b.declaration, init := b.init.map m.site }

def role : Role → Role
  | .value => .value
  | .pattern b steps => .pattern (m.binder b) steps
  | .target access => .target access
  | .elementName => .elementName
  | .elementObject => .elementObject

def declaration (d : Declaration) : Declaration :=
  { d with ident := m.site d.ident, declaration := m.site d.declaration, init := d.init.map m.site }

def event : Event → Event
  | .enter kind s => .enter kind (m.site s)
  | .leave => .leave
  | .declare d => .declare (m.declaration d)
  | .refer name s access => .refer name (m.site s) access

def step : Step → Step
  | .emit ev => .emit (m.event ev)
  | .visit r c => .visit (m.role r) (m.site c)

/-- A site that is kept, or a child of one. -/
def AtOrBelow (Kept : Site → Prop) (c : Site) : Prop := Kept c ∨ ∃ s, Kept s ∧ c ∈ s.children

/-- What is asked of the sites that are kept has the same answer at the new places, when the
texts are read from another source. -/
structure Keeps (source target : String) (Kept : Site → Prop) : Prop where
  injective : Function.Injective m.number
  kind : ∀ s, (m.site s).kind = s.kind
  child : ∀ {s c : Site}, Kept s → s.kind.holdsArgument = false → c ∈ s.children → Kept c
  namedChildren : ∀ {s : Site}, Kept s → (m.site s).namedChildren = s.namedChildren.map m.site
  field? : ∀ {s : Site}, Kept s → ∀ f, (m.site s).field? f = (s.field? f).map m.site
  firstNamed? : ∀ {s : Site}, Kept s → s.kind.readsFirst = true →
    (m.site s).firstNamed? = s.firstNamed?.map m.site
  elements : ∀ {s : Site}, Kept s → s.kind = .arrayPattern →
    elements 0 (m.site s).children = (elements 0 s.children).map (Prod.map id m.site)
  castOperand? : ∀ {s : Site}, Kept s → (m.site s).castOperand? = s.castOperand?.map m.site
  text : ∀ {c : Site}, AtOrBelow Kept c → c.isSpelled = true →
    (m.site c).text target = c.text source

variable {m} {source target : String} {Kept : Site → Prop} {s c : Site}

theorem AtOrBelow.field {f : Field} (hs : Kept s) (hc : s.field? f = some c) : AtOrBelow Kept c :=
  Or.inr ⟨s, hs, Site.mem_children_of_field? hc⟩

theorem visits_site (r : Role) (sites : List Site) :
    (sites.map m.site).map (Step.visit (m.role r)) = (sites.map (Step.visit r)).map m.step := by
  rw [List.map_map, List.map_map]
  rfl

theorem append_site {as bs as' bs' : List Step} (ha : as' = as.map m.step)
    (hb : bs' = bs.map m.step) : as' ++ bs' = (as ++ bs).map m.step := by
  rw [ha, hb, List.map_append]

theorem region_site {steps steps' : List Step} (kind : ScopeKind) (s : Site)
    (h : steps' = steps.map m.step) :
    region kind (m.site s) steps' = (region kind s steps).map m.step := by
  subst h
  simp [region, step, event]

namespace Keeps

/-! ### Small contributions -/

theorem namedChild (h : m.Keeps source target Kept) (hs : Kept s)
    (hk : s.kind.holdsArgument = false) (hc : c ∈ s.namedChildren) : Kept c :=
  h.child hs hk (Site.mem_children_of_mem_namedChildren hc)

theorem fieldChild (h : m.Keeps source target Kept) (hs : Kept s)
    (hk : s.kind.holdsArgument = false) {f : Field} (hc : s.field? f = some c) : Kept c :=
  h.child hs hk (Site.mem_children_of_field? hc)

theorem declareSteps_site (h : m.Keeps source target Kept) (hs : AtOrBelow Kept s)
    (hspelled : s.isSpelled = true) (b : Binder) (steps : List PatternStep) :
    declareSteps target (m.binder b) steps (m.site s) =
      (declareSteps source b steps s).map m.step := by
  unfold declareSteps
  rw [h.text hs hspelled]
  rfl

theorem referSteps_site (h : m.Keeps source target Kept) (hs : AtOrBelow Kept s)
    (hspelled : s.isSpelled = true) (access : Access) :
    referSteps target access (m.site s) = (referSteps source access s).map m.step := by
  unfold referSteps
  rw [h.text hs hspelled]
  rfl

theorem fieldSteps_site (h : m.Keeps source target Kept) (hs : Kept s) (r : Role) (f : Field) :
    fieldSteps (m.role r) f (m.site s) = (fieldSteps r f s).map m.step := by
  unfold fieldSteps
  rw [h.field? hs]
  cases s.field? f <;> rfl

theorem childSteps_site (h : m.Keeps source target Kept) (hs : Kept s) :
    childSteps (m.site s) = (childSteps s).map m.step := by
  unfold childSteps
  rw [h.namedChildren hs]
  exact visits_site .value _

theorem memberSteps_site (h : m.Keeps source target Kept) (hs : Kept s) :
    memberSteps (m.site s) = (memberSteps s).map m.step := by
  have htest : ∀ c : Site, ((m.site s).field? .name).all (·.id != (m.site c).id) =
      (s.field? .name).all (·.id != c.id) := by
    intro c
    rw [h.field? hs]
    cases s.field? .name with
    | none => rfl
    | some name =>
        rw [Option.map_some, Option.all_some, Option.all_some, Bool.eq_iff_iff, bne_iff_ne,
          bne_iff_ne, m.id_site, m.id_site, h.injective.ne_iff]
  unfold memberSteps
  rw [h.namedChildren hs, List.filter_map]
  simp only [Function.comp_def, htest]
  exact visits_site .value _

theorem nameSteps_site (h : m.Keeps source target Kept) (hs : Kept s)
    (hk : s.kind.spellsName = true) (kind : BindingKind) :
    nameSteps target kind (m.site s) = (nameSteps source kind s).map m.step := by
  unfold nameSteps
  rw [h.field? hs]
  cases hname : s.field? .name with
  | none => rfl
  | some name =>
      have hspelled := Site.isSpelled_of_field hname (by simp [hk])
      exact h.declareSteps_site (.field hs hname) hspelled
        { kind, target := .current, declaration := s } []

theorem computedKeySteps_site (h : m.Keeps source target Kept) (hs : Kept s) (f : Field) :
    computedKeySteps f (m.site s) = (computedKeySteps f s).map m.step := by
  unfold computedKeySteps
  rw [h.field? hs]
  cases s.field? f with
  | none => rfl
  | some key =>
      simp only [Option.map_some, h.kind]
      split <;> rfl

/-- The first named child, where it is what is read. -/
theorem firstSteps_site (h : m.Keeps source target Kept) (hs : Kept s)
    (hk : s.kind.readsFirst = true) (r : Role) :
    (m.site s).firstNamed?.toList.map (Step.visit (m.role r)) =
      (s.firstNamed?.toList.map (Step.visit r)).map m.step := by
  rw [h.firstNamed? hs hk]
  cases s.firstNamed? <;> rfl

theorem wrapped?_site (h : m.Keeps source target Kept) (hs : Kept s) :
    (m.site s).wrapped? = s.wrapped?.map m.site := by
  unfold Site.wrapped?
  rw [h.kind]
  split
  · rw [h.namedChildren hs, List.getLast?_map]
  · rw [h.castOperand? hs]
    cases s.castOperand? with
    | some operand => rfl
    | none => exact (congrArg List.head? (h.namedChildren hs)).trans List.head?_map
  · rw [h.namedChildren hs, List.head?_map]
  · rfl

theorem wrappedSteps_site (h : m.Keeps source target Kept) (hs : Kept s) (r : Role) :
    (m.site s).wrapped?.toList.map (Step.visit (m.role r)) =
      (s.wrapped?.toList.map (Step.visit r)).map m.step := by
  rw [h.wrapped?_site hs]
  cases s.wrapped? <;> rfl

/-! ### Functions, declarations, imports -/

theorem functionSteps_site (h : m.Keeps source target Kept) (hs : Kept s)
    (hk : s.kind.isFunction = true) :
    functionSteps target (m.site s) = (functionSteps source s).map m.step := by
  have hholds : s.kind.holdsArgument = false := by
    revert hk
    cases s.kind <;> simp [Kind.isFunction, Kind.holdsArgument]
  let binder : Binder := { kind := .parameter, target := .current, declaration := s }
  refine region_site .function s (append_site (append_site (append_site ?_ ?_) ?_) ?_)
  · rw [h.kind]
    split
    · exact h.nameSteps_site hs (by simp [*, Kind.spellsName]) _
    · rfl
  · exact h.fieldSteps_site hs (.pattern binder []) .parameter
  · rw [h.field? hs]
    cases hps : s.field? .parameters with
    | none => rfl
    | some ps =>
        simp only [Option.map_some, h.namedChildren (h.fieldChild hs hholds hps)]
        exact visits_site (.pattern binder []) _
  · rw [h.field? hs]
    cases hbody : s.field? .body with
    | none => rfl
    | some body =>
        simp only [Option.map_some, h.kind]
        split
        · exact h.childSteps_site (h.fieldChild hs hholds hbody)
        · rfl

theorem declaredKind_site (h : m.Keeps source target Kept) (hs : Kept s) :
    declaredKind target (m.site s) = declaredKind source s := by
  have hconst : ((m.site s).field? .kind).any (·.text target == "const") =
      (s.field? .kind).any (·.text source == "const") := by
    rw [h.field? hs]
    cases hword : s.field? .kind with
    | none => rfl
    | some word =>
        have hspelled := Site.isSpelled_of_field hword (by simp)
        simp only [Option.map_some, Option.any_some, h.text (.field hs hword) hspelled]
  unfold declaredKind
  rw [h.kind, hconst]

theorem declarationSteps_site (h : m.Keeps source target Kept) (hs : Kept s)
    (hk : s.kind.holdsArgument = false) :
    declarationSteps target (m.site s) = (declarationSteps source s).map m.step := by
  unfold declarationSteps
  simp only [h.declaredKind_site hs, h.namedChildren hs, List.filter_map, Function.comp_def,
    h.kind, List.flatMap_map, List.map_flatMap]
  refine List.flatMap_congr fun d hd => ?_
  have hd' : Kept d := h.namedChild hs hk (List.mem_filter.mp hd).1
  rw [List.map_append, ← h.fieldSteps_site hd', ← h.fieldSteps_site hd', h.field? hd']
  rfl

theorem forInSteps_site (h : m.Keeps source target Kept) (hs : Kept s) :
    forInSteps target (m.site s) = (forInSteps source s).map m.step := by
  refine region_site .loop s (append_site (append_site ?_ ?_) ?_)
  · rw [h.field? hs]
    cases hword : s.field? .kind with
    | none => exact h.fieldSteps_site hs (.target .write) .left
    | some word =>
        have hspelled := Site.isSpelled_of_field hword (by simp)
        simp only [Option.map_some, h.text (.field hs hword) hspelled]
        let kind := loopVariable (word.text source)
        exact h.fieldSteps_site hs
          (.pattern { kind := .variable kind, target := kind.home, declaration := s } []) .left
  · exact h.fieldSteps_site hs .value .right
  · exact h.fieldSteps_site hs .value .body

/-- The name a specifier imports under is read. -/
theorem importedName?_site (h : m.Keeps source target Kept) (hs : Kept s) :
    importedName? (m.site s) = (importedName? s).map m.site := by
  unfold importedName?
  rw [h.field? hs, h.field? hs]
  cases s.field? .alias <;> rfl

end Keeps

theorem mem_children_of_importedName? (h : importedName? s = some c) : c ∈ s.children := by
  unfold importedName? at h
  split at h
  · rename_i name hname
    rw [← Option.some.inj h]
    exact Site.mem_children_of_field? hname
  · exact Site.mem_children_of_field? h

namespace Keeps

theorem importedBy_site (h : m.Keeps source target Kept) (hs : Kept s) :
    importedBy (m.site s) = (importedBy s).map m.site := by
  unfold importedBy
  rw [h.kind]
  split
  · rfl
  · rw [h.namedChildren hs, List.find?_map]
    simp only [Function.comp_def, h.kind]
    cases s.namedChildren.find? (·.kind == .identifier) <;> rfl
  · rename_i hk
    rw [h.namedChildren hs, List.filterMap_map, List.map_filterMap]
    refine List.filterMap_congr fun spec hspec => ?_
    exact h.importedName?_site (h.namedChild hs (by rw [hk]; rfl) hspec)
  · rfl

theorem spelled_of_mem_importedBy (h : m.Keeps source target Kept) (hs : Kept s)
    (hc : c ∈ importedBy s) : AtOrBelow Kept c ∧ c.isSpelled = true := by
  unfold importedBy at hc
  split at hc
  · rename_i hk
    rw [List.mem_singleton.mp hc]
    exact ⟨Or.inl hs, Site.isSpelled_of_kind (by rw [hk]; rfl)⟩
  · have hfind := Option.mem_toList.mp hc
    have hkc : c.kind = .identifier := by simpa using List.find?_some hfind
    exact ⟨Or.inr ⟨s, hs, Site.mem_children_of_mem_namedChildren (List.mem_of_find?_eq_some hfind)⟩,
      Site.isSpelled_of_kind (by rw [hkc]; rfl)⟩
  · rename_i hk
    obtain ⟨spec, hspec, hname⟩ := List.mem_filterMap.mp hc
    have hmem := Site.mem_children_of_mem_namedChildren hspec
    have hc' := mem_children_of_importedName? hname
    exact ⟨Or.inr ⟨spec, h.child hs (by rw [hk]; rfl) hmem, hc'⟩,
      Site.isSpelled_of_import hc' (Or.inr ⟨s, hmem, hk⟩)⟩
  · contradiction

theorem importedIdents_site (h : m.Keeps source target Kept) (hs : Kept s)
    (hk : s.kind.holdsArgument = false) :
    importedIdents (m.site s) = (importedIdents s).map m.site := by
  unfold importedIdents
  rw [h.namedChildren hs, List.flatMap_map, List.map_flatMap]
  refine List.flatMap_congr fun child hchild => ?_
  have hc : Kept child := h.namedChild hs hk hchild
  rw [h.kind]
  split
  · rename_i hkc
    rw [h.namedChildren hc, List.flatMap_map, List.map_flatMap]
    refine List.flatMap_congr fun part hpart => ?_
    exact h.importedBy_site (h.namedChild hc (by rw [hkc]; rfl) hpart)
  · rename_i hkc
    rw [h.firstNamed? hc (by rw [hkc]; rfl)]
    cases child.firstNamed? <;> rfl
  · rfl

theorem spelled_of_mem_importedIdents (h : m.Keeps source target Kept) (hs : Kept s)
    (hk : s.kind.holdsArgument = false) (hc : c ∈ importedIdents s) :
    AtOrBelow Kept c ∧ c.isSpelled = true := by
  obtain ⟨child, hchild, hc⟩ := List.mem_flatMap.mp hc
  have hkept : Kept child := h.namedChild hs hk hchild
  split at hc
  · rename_i hkc
    obtain ⟨part, hpart, hc⟩ := List.mem_flatMap.mp hc
    exact h.spelled_of_mem_importedBy (h.namedChild hkept (by rw [hkc]; rfl) hpart) hc
  · rename_i hkc
    have hmem := Site.mem_children_of_firstNamed? (Option.mem_toList.mp hc)
    exact ⟨Or.inr ⟨child, hkept, hmem⟩, Site.isSpelled_of_import hmem (Or.inl hkc)⟩
  · contradiction

theorem importSteps_site (h : m.Keeps source target Kept) (hs : Kept s)
    (hk : s.kind.holdsArgument = false) :
    importSteps target (m.site s) = (importSteps source s).map m.step := by
  unfold importSteps
  rw [h.importedIdents_site hs hk, List.flatMap_map, List.map_flatMap]
  refine List.flatMap_congr fun ident hident => ?_
  obtain ⟨hkept, hspelled⟩ := h.spelled_of_mem_importedIdents hs hk hident
  exact h.declareSteps_site hkept hspelled
    { kind := .imported, target := .module, declaration := s } []

/-! ### Values -/

theorem expandValue_site (h : m.Keeps source target Kept) (hs : Kept s) :
    expandValue target (m.site s) = (expandValue source s).map m.step := by
  have hfunction : s.kind.isFunction = true → _ := h.functionSteps_site hs
  have hname : s.kind.spellsName = true → ∀ kind, _ := h.nameSteps_site hs
  have hchildren := h.childSteps_site hs
  have hmembers := h.memberSteps_site hs
  have hfield := h.fieldSteps_site hs
  unfold expandValue
  rw [h.kind]
  split
  · rfl
  · rfl
  · exact h.referSteps_site (Or.inl hs) (Site.isSpelled_of_kind (by simp [*, Kind.isSpelled])) _
  · exact h.referSteps_site (Or.inl hs) (Site.isSpelled_of_kind (by simp [*, Kind.isSpelled])) _
  · exact append_site (hname (by simp [*, Kind.spellsName]) _)
      (hfunction (by simp [*, Kind.isFunction]))
  · exact hfunction (by simp [*, Kind.isFunction])
  · exact hfunction (by simp [*, Kind.isFunction])
  · exact append_site (h.computedKeySteps_site hs .name) (hfunction (by simp [*, Kind.isFunction]))
  · exact append_site (hname (by simp [*, Kind.spellsName]) _) hmembers
  · rw [h.field? hs, Option.isSome_map]
    split
    · exact region_site _ s (append_site (hname (by simp [*, Kind.spellsName]) _) hmembers)
    · exact hmembers
  · exact h.declarationSteps_site hs (by simp [*, Kind.holdsArgument])
  · exact h.declarationSteps_site hs (by simp [*, Kind.holdsArgument])
  · exact h.importSteps_site hs (by simp [*, Kind.holdsArgument])
  · rw [h.field? hs, Option.isSome_map]
    split
    · rfl
    · exact hchildren
  · exact hfield .value .name
  · exact region_site _ s hchildren
  · exact region_site _ s hchildren
  · exact region_site _ s hchildren
  · exact h.forInSteps_site hs
  · let binder : Binder := { kind := .catchParameter, target := .current, declaration := s }
    exact region_site _ s
      (append_site (hfield (.pattern binder []) .parameter) (hfield .value .body))
  · exact append_site (hfield (.target .write) .left) (hfield .value .right)
  · exact append_site (hfield (.target .readWrite) .left) (hfield .value .right)
  · exact hfield (.target .readWrite) .argument
  · exact h.wrappedSteps_site hs .value
  · exact h.wrappedSteps_site hs .value
  · rw [h.castOperand? hs]
    cases s.castOperand? with
    | none => exact hchildren
    | some operand => rfl
  · exact append_site (hfield .elementName .name) hmembers
  · exact append_site (hfield .elementName .name) hmembers
  · rfl
  · rfl
  · exact hname (by simp [*, Kind.spellsName]) _
  · exact hfield .value .body
  · exact hchildren

/-! ### Patterns and targets -/

theorem patternKey_site (h : m.Keeps source target Kept) (hs : Kept s) :
    patternKey target (m.site s) = patternKey source s := by
  unfold patternKey
  rw [h.field? hs]
  cases hkey : s.field? .key with
  | none => rfl
  | some key =>
      simp only [Option.map_some, h.kind]
      split
      · rfl
      · rename_i hk
        have htext := h.text (.field hs hkey) (Site.isSpelled_of_field hkey (by simp [hk]))
        simp only [Site.stringContents?, h.kind, htext]

theorem expandProperty_site (h : m.Keeps source target Kept) (hs : Kept s) (b : Binder)
    (steps : List PatternStep) :
    expandProperty target (m.binder b) steps (m.site s) =
      (expandProperty source b steps s).map m.step := by
  unfold expandProperty
  rw [h.kind]
  split
  · rename_i hk
    have hspelled : s.isSpelled = true := Site.isSpelled_of_kind (by rw [hk]; rfl)
    rw [h.text (Or.inl hs) hspelled]
    exact h.declareSteps_site (Or.inl hs) hspelled b _
  · rw [h.patternKey_site hs]
    exact append_site (h.computedKeySteps_site hs .key) (h.fieldSteps_site hs (.pattern b _) .value)
  · refine append_site ?_ (h.fieldSteps_site hs .value .right)
    rw [h.field? hs]
    cases hleft : s.field? .left with
    | none => rfl
    | some left =>
        simp only [Option.map_some, h.kind]
        split
        · rename_i hkl
          have hspelled : left.isSpelled = true := Site.isSpelled_of_kind (by rw [hkl]; rfl)
          rw [h.text (.field hs hleft) hspelled]
          exact h.declareSteps_site (.field hs hleft) hspelled b _
        · rfl
  · rfl
  · rfl

theorem expandPattern_site (h : m.Keeps source target Kept) (hs : Kept s) (b : Binder)
    (steps : List PatternStep) :
    expandPattern target (m.binder b) steps (m.site s) =
      (expandPattern source b steps s).map m.step := by
  have hfield := h.fieldSteps_site hs
  unfold expandPattern
  rw [h.kind]
  split
  · exact h.declareSteps_site (Or.inl hs) (Site.isSpelled_of_kind (by simp [*, Kind.isSpelled])) b
      steps
  · exact h.declareSteps_site (Or.inl hs) (Site.isSpelled_of_kind (by simp [*, Kind.isSpelled])) b
      steps
  · rename_i hk
    rw [h.namedChildren hs, List.flatMap_map, List.map_flatMap]
    refine List.flatMap_congr fun c hc => ?_
    exact h.expandProperty_site (h.namedChild hs (by rw [hk]; rfl) hc) b steps
  · rename_i hk
    rw [h.elements hs hk, List.map_map, List.map_map]
    rfl
  · exact append_site (hfield (.pattern b steps) .left) (hfield .value .right)
  · rename_i hk
    exact h.firstSteps_site hs (by rw [hk]; rfl) (.pattern b (steps ++ [.rest]))
  · exact append_site (hfield (.pattern b steps) .pattern) (hfield .value .value)
  · rfl

theorem expandTargetProperty_site (h : m.Keeps source target Kept) (hs : Kept s) :
    expandTargetProperty target (m.site s) = (expandTargetProperty source s).map m.step := by
  unfold expandTargetProperty
  rw [h.kind]
  split
  · exact h.referSteps_site (Or.inl hs) (Site.isSpelled_of_kind (by simp [*, Kind.isSpelled])) _
  · exact append_site (h.computedKeySteps_site hs .key)
      (h.fieldSteps_site hs (.target .write) .value)
  · refine append_site ?_ (h.fieldSteps_site hs .value .right)
    rw [h.field? hs]
    cases hleft : s.field? .left with
    | none => rfl
    | some left =>
        simp only [Option.map_some, h.kind]
        split
        · exact h.referSteps_site (.field hs hleft)
            (Site.isSpelled_of_kind (by simp [*, Kind.isSpelled])) _
        · rfl
  · rfl
  · rfl

theorem expandTarget_site (h : m.Keeps source target Kept) (hs : Kept s) (access : Access) :
    expandTarget target access (m.site s) = (expandTarget source access s).map m.step := by
  have hwrapped := h.wrappedSteps_site hs (.target access)
  unfold expandTarget
  rw [h.kind]
  split
  · exact h.referSteps_site (Or.inl hs) (Site.isSpelled_of_kind (by simp [*, Kind.isSpelled])) _
  · exact hwrapped
  · exact hwrapped
  · exact hwrapped
  · rename_i hk
    rw [h.namedChildren hs, List.flatMap_map, List.map_flatMap]
    refine List.flatMap_congr fun c hc => ?_
    exact h.expandTargetProperty_site (h.namedChild hs (by rw [hk]; rfl) hc)
  · rw [h.namedChildren hs]
    exact visits_site (.target .write) _
  · exact append_site (h.fieldSteps_site hs (.target .write) .left)
      (h.fieldSteps_site hs .value .right)
  · rename_i hk
    exact h.firstSteps_site hs (by rw [hk]; rfl) (.target .write)
  · exact h.expandValue_site hs

/-! ### All roles -/

theorem expandElementName_site (h : m.Keeps source target Kept) (hs : Kept s) :
    expandElementName target (m.site s) = (expandElementName source s).map m.step := by
  have hobject := h.firstSteps_site hs
  unfold expandElementName
  rw [h.kind]
  split
  · have hspelled : s.isSpelled = true := Site.isSpelled_of_kind (by simp [*, Kind.isSpelled])
    rw [h.text (Or.inl hs) hspelled]
    split
    · exact h.referSteps_site (Or.inl hs) hspelled _
    · rfl
  · exact hobject (by simp [*, Kind.readsFirst]) .elementObject
  · exact hobject (by simp [*, Kind.readsFirst]) .elementObject
  · rfl

theorem expandElementObject_site (h : m.Keeps source target Kept) (hs : Kept s) :
    expandElementObject target (m.site s) = (expandElementObject source s).map m.step := by
  have hobject := h.firstSteps_site hs
  unfold expandElementObject
  rw [h.kind]
  split
  · exact h.referSteps_site (Or.inl hs) (Site.isSpelled_of_kind (by simp [*, Kind.isSpelled])) _
  · exact hobject (by simp [*, Kind.readsFirst]) .elementObject
  · exact hobject (by simp [*, Kind.readsFirst]) .elementObject
  · rfl

/-- A site that is kept contributes what it contributed. -/
theorem expand_site (h : m.Keeps source target Kept) (hs : Kept s) (r : Role) :
    expand target (m.role r) (m.site s) = (expand source r s).map m.step := by
  cases r with
  | value => exact h.expandValue_site hs
  | pattern b steps => exact h.expandPattern_site hs b steps
  | target access => exact h.expandTarget_site hs access
  | elementName => exact h.expandElementName_site hs
  | elementObject => exact h.expandElementObject_site hs

end Keeps

/-! ### Tables, at their new places -/

variable (m)

def scope (s : ScopeRecord) : ScopeRecord := { s with site := m.site s.site }

def binding (b : Binding) : Binding :=
  { b with ident := m.site b.ident, declaration := m.site b.declaration, init := b.init.map m.site }

def reference (r : Reference) : Reference := { r with site := m.site r.site }

def nodes (l : List (Nat × Nat)) : List (Nat × Nat) := l.map fun p => (m.number p.1, p.2)

def graph (g : Graph) : Graph where
  scopes := g.scopes.map m.scope
  bindings := g.bindings.map m.binding
  references := g.references.map m.reference
  uses := g.uses
  scopeNodes := m.nodes g.scopeNodes
  referenceNodes := m.nodes g.referenceNodes

def builder (b : Builder) : Builder := ⟨m.graph b.graph, b.stack⟩

variable {m}

theorem own?_graph (g : Graph) (i : ScopeId) (name : String) :
    (m.graph g).own? i name = g.own? i name := by
  unfold Graph.own? graph
  rw [Array.getElem?_map]
  cases g.scopes[i]? <;> rfl

theorem any_scopes_graph (g : Graph) (i : ScopeId) (test : ScopeKind → Bool) :
    ((m.graph g).scopes[i]?).any (fun s => test s.kind) =
      (g.scopes[i]?).any fun s => test s.kind := by
  show ((g.scopes.map m.scope)[i]?).any _ = _
  rw [Array.getElem?_map]
  cases g.scopes[i]? <;> rfl

theorem modify_map {α : Type} {φ : α → α} (table : Array α) (i : Nat) {f f' : α → α}
    (h : ∀ x, f' (φ x) = φ (f x)) : (table.map φ).modify i f' = (table.modify i f).map φ := by
  refine Array.ext_getElem? fun j => ?_
  rw [Array.getElem?_modify, Array.getElem?_map, Array.getElem?_map, Array.getElem?_modify]
  split
  · rw [Option.map_map, Option.map_map]
    exact congrArg (Option.map · _) (funext h)
  · rfl

/-! ### Building -/

theorem home_builder (b : Builder) (target : Target) :
    (m.builder b).home target = b.home target := by
  cases target with
  | current => rfl
  | hoisted =>
      show (b.stack.find? _).getD _ = (b.stack.find? _).getD _
      congr 2
      funext i
      exact any_scopes_graph b.graph i fun kind => kind == .function || kind == .module
  | module => rfl

theorem withBinding_builder (b : Builder) (d : Declaration) :
    (m.builder b).withBinding (m.declaration d) = m.builder (b.withBinding d) := by
  have hhome : (m.builder b).home (m.declaration d).target = b.home d.target := home_builder b _
  unfold Builder.withBinding
  rw [hhome]
  simp only [builder, graph, Array.map_push, Array.size_map]
  congr 2
  exact modify_map _ _ fun s => rfl

theorem declare_builder (b : Builder) (d : Declaration) :
    (m.builder b).declare (m.declaration d) = m.builder (b.declare d) := by
  have hown : (m.builder b).graph.own? ((m.builder b).home (m.declaration d).target)
      (m.declaration d).name = b.graph.own? (b.home d.target) d.name := by
    rw [home_builder]
    exact own?_graph b.graph _ _
  by_cases h : d.name = "" ∨ (b.graph.own? (b.home d.target) d.name).isSome = true
  · have hold : b.declare d = b := if_pos h
    rw [hold]
    exact if_pos (by rw [hown]; exact h)
  · have hold : b.declare d = b.withBinding d := if_neg h
    rw [hold, ← withBinding_builder]
    exact if_neg (by rw [hown]; exact h)

/-- A builder does at the new places what it did at the old ones. -/
theorem step_builder (b : Builder) (ev : Event) :
    (m.builder b).step (m.event ev) = m.builder (b.step ev) := by
  cases ev with
  | enter kind s =>
      show (m.builder b).enter kind (m.site s) = m.builder (b.enter kind s)
      simp [Builder.enter, builder, graph, scope, nodes, m.id_site]
  | leave => rfl
  | declare d => exact declare_builder b d
  | refer name s access =>
      show (m.builder b).refer name (m.site s) access = m.builder (b.refer name s access)
      simp [Builder.refer, Builder.current, builder, graph, reference, nodes, m.id_site]

theorem builder_empty : m.builder Builder.empty = Builder.empty := by
  simp [builder, Builder.empty, graph, Graph.empty, nodes]

theorem run_builder (b : Builder) (es : List Event) :
    (m.builder b).run (es.map m.event) = m.builder (b.run es) := by
  unfold Builder.run
  induction es generalizing b with
  | nil => rfl
  | cons ev es ih => rw [List.map_cons, List.foldl_cons, List.foldl_cons, step_builder, ih]

/-! ### Resolving -/

theorem ancestors_graph (g : Graph) (i : ScopeId) : (m.graph g).ancestors i = g.ancestors i := by
  refine Graph.ancestors_congr i fun j _ => ?_
  unfold Graph.parent? graph
  rw [Array.getElem?_map]
  cases g.scopes[j]? <;> rfl

theorem owner?_graph (g : Graph) (i : ScopeId) (name : String) :
    (m.graph g).owner? i name = g.owner? i name := by
  unfold Graph.owner?
  rw [ancestors_graph]
  simp only [own?_graph]

theorem resolveOne_graph (g : Graph) (i : ReferenceId) :
    (m.graph g).resolveOne i = m.graph (g.resolveOne i) := by
  have hreference : (m.graph g).references[i]? = g.references[i]?.map m.reference :=
    Array.getElem?_map
  unfold Graph.resolveOne
  rw [hreference]
  cases g.references[i]? with
  | none => rfl
  | some r =>
      have howner : (m.graph g).owner? (m.reference r).scope (m.reference r).name =
          g.owner? r.scope r.name := owner?_graph g _ _
      simp only [Option.map_some, howner]
      cases g.owner? r.scope r.name with
      | none => rfl
      | some found =>
          simp only [graph]
          congr 1
          · exact modify_map _ _ fun s => rfl
          · exact modify_map _ _ fun r => rfl

theorem resolve_graph (g : Graph) : (m.graph g).resolve = m.graph g.resolve := by
  have hsize : (m.graph g).references.size = g.references.size := Array.size_map
  unfold Graph.resolve
  rw [hsize]
  generalize List.range g.references.size = ids
  clear hsize
  induction ids generalizing g with
  | nil => rfl
  | cons i ids ih => rw [List.foldl_cons, List.foldl_cons, resolveOne_graph, ih]

/-- Units with the same events at other places have the same graph at other places. -/
theorem build_graph {root root' : Tree}
    (h : unitEvents target root' = (unitEvents source root).map m.event) :
    Graph.build target root' = m.graph (Graph.build source root) := by
  unfold Graph.build
  rw [h, ← resolve_graph, ← builder_empty (m := m), run_builder, builder_empty]
  rfl

end Relocation

end HookLint.Scope

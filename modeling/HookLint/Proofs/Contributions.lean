/-
What one site contributes.

`expand` goes by roles and kinds of node.  What is needed of a single contribution is said here
once, with a constructor for each sort of it (`Offers`):

  * a region is the site's own; only some kinds of node open one, and only where they are read
    as expressions;
  * a name is declared in the way the role hands down, or in one of the few ways the site has
    (`Declares`);
  * what is written is a target of the site, or is peeled or taken out of a site that is a
    target itself (`Writes`);
  * whatever is read or referred to is the site, a child, or a child of a child that is passed
    over (`Adjoins`).

So what holds of each sort holds of all that a site contributes (`offers_of_mem_expand`),
whatever it is and whatever it is read as.
-/
import HookLint.Scope.Events
import HookLint.Proofs.Sites

namespace HookLint.Syntax

/-- The kinds of node that assign to what fills a field of theirs. -/
def Kind.assigns : Kind → Bool
  | assignment | augmentedAssignment | update => true
  | _ => false

/-- The kinds of node between what writes and the names that are written. -/
def Kind.carriesTarget : Kind → Bool
  | parenthesized | assertion | typeAssertion | error | arrayPattern | objectPattern | pairPattern
  | assignmentPattern | objectAssignmentPattern | restPattern => true
  | _ => false

namespace Site

/-- `host` has `target` for a target: it assigns to it, or hands it a part of what is
assigned. -/
inductive IsTargetOf (host target : Site) : Prop
  | assignment (hkind : host.kind = .assignment ∨ host.kind = .augmentedAssignment)
      (htarget : host.field? .left = some target)
  | update (hkind : host.kind = .update) (htarget : host.field? .argument = some target)
  /-- the head of a loop that declares nothing -/
  | loop (hkind : host.kind = .forIn) (hplain : host.field? .kind = none)
      (htarget : host.field? .left = some target)
  | element (hkind : host.kind = .arrayPattern ∨ host.kind = .objectPattern)
      (htarget : target ∈ host.namedChildren)
  | property (hkind : host.kind = .pairPattern) (htarget : host.field? .value = some target)
  /-- what has a default -/
  | default (hkind : host.kind = .assignmentPattern ∨ host.kind = .objectAssignmentPattern)
      (htarget : host.field? .left = some target)
  | rest (hkind : host.kind = .restPattern) (htarget : host.firstNamed? = some target)

theorem IsTargetOf.mem_children {host target : Site} (h : IsTargetOf host target) :
    target ∈ host.children := by
  cases h with
  | assignment _ h => exact mem_children_of_field? h
  | update _ h => exact mem_children_of_field? h
  | loop _ _ h => exact mem_children_of_field? h
  | element _ h => exact mem_children_of_mem_namedChildren h
  | property _ h => exact mem_children_of_field? h
  | default _ h => exact mem_children_of_field? h
  | rest _ h => exact mem_children_of_firstNamed? h

end Site

end HookLint.Syntax

namespace HookLint.Scope

open HookLint.Syntax HookLint.Syntax.Site

/-! ### Kinds of node and roles -/

/-- Kinds of node that are passed over on the way from a node to those below it. -/
def isPassedOver : Kind → Bool
  | .error | .statementBlock | .declarator | .pairPattern | .objectAssignmentPattern => true
  | _ => false

/-- Kinds of node whose text is a name. -/
def isNameKind : Kind → Bool
  | .identifier | .shorthandProperty | .shorthandPattern => true
  | _ => false

/-- Kinds of node that open a region or declare a name. -/
def isBinding : Kind → Bool
  | .functionDeclaration | .functionExpression | .arrowFunction | .method | .classDeclaration
  | .classExpression | .lexicalDeclaration | .variableDeclaration | .importStatement
  | .statementBlock | .switchBody | .forLoop | .forIn | .catchClause | .enumDeclaration => true
  | _ => false

/-- Kinds of node that open a region. -/
def opensRegion : Kind → Bool
  | .functionDeclaration | .functionExpression | .arrowFunction | .method | .classExpression
  | .statementBlock | .switchBody | .forLoop | .forIn | .catchClause => true
  | _ => false

theorem isBinding_of_opensRegion {k : Kind} (h : opensRegion k = true) : isBinding k = true := by
  revert h
  cases k <;> simp [opensRegion, isBinding]

def Role.isPattern : Role → Bool
  | .pattern _ _ => true
  | _ => false

def Role.isTarget : Role → Bool
  | .target _ => true
  | _ => false

/-- The roles in which a site may open a region.  A target that is no pattern is read as a
value. -/
def Role.isExpression : Role → Bool
  | .value | .target _ => true
  | _ => false

/-- How a role declares the names it leads to. -/
def Role.binder? : Role → Option Binder
  | .pattern binder _ => some binder
  | _ => none

/-! ### Where a contribution leads -/

/-- `c` is a child of `s`, or a child of a child that is passed over. -/
inductive Adjoins (s : Site) : Site → Prop
  | child {c : Site} (hc : c ∈ s.children) : Adjoins s c
  | past {d c : Site} (hd : d ∈ s.children) (h : isPassedOver d.kind = true)
      (hc : c ∈ d.children) : Adjoins s c

section Adjoins

variable {s c : Site}

theorem Adjoins.below (h : Adjoins s c) : ∃ d ∈ s.children, Under d c := by
  cases h with
  | child hc => exact ⟨c, hc, .self c⟩
  | past hd _ hc => exact ⟨_, hd, .of_child hc⟩

theorem Adjoins.under (h : Adjoins s c) : Under s c := by
  obtain ⟨d, hd, hdc⟩ := h.below
  exact (Under.of_child hd).trans hdc

theorem adjoins_namedChildren (h : c ∈ s.namedChildren) : Adjoins s c :=
  .child (mem_children_of_mem_namedChildren h)

theorem adjoins_field {f : Field} (h : s.field? f = some c) : Adjoins s c :=
  .child (mem_children_of_field? h)

theorem adjoins_firstNamed (h : s.firstNamed? = some c) : Adjoins s c :=
  .child (mem_children_of_firstNamed? h)

theorem adjoins_wrapped (h : s.wrapped? = some c) : Adjoins s c := by
  rcases mem_of_wrapped? h with hc | ⟨-, d, hd, hkind, hc⟩
  · exact .child hc
  · exact .past hd (by rw [hkind]; rfl) hc

/-- The operand of a cast is what the parentheses wrap. -/
theorem adjoins_castOperand (h : s.castOperand? = some c) : Adjoins s c :=
  adjoins_wrapped (wrapped?_of_castOperand? h)

end Adjoins

/-! ### How names are declared -/

/-- How a declaration declares its name. -/
def Declaration.binder (d : Declaration) : Binder :=
  { kind := d.kind, target := d.target, declaration := d.declaration, init := d.init }

/-- The ways a site declares names on its own account. -/
inductive Binds (s : Site) : Binder → Prop
  /-- its name, its parameters -/
  | own (kind : BindingKind) (hkind : ∀ k, kind ≠ .variable k) :
      Binds s { kind, target := .current, declaration := s }
  | declarator {d : Site} (k : VariableKind)
      (hkind : s.kind = .lexicalDeclaration ∨ s.kind = .variableDeclaration)
      (hd : d ∈ s.namedChildren) (hkd : d.kind = .declarator) :
      Binds s
        { kind := .variable k, target := k.home, declaration := d, init := d.field? .value }
  /-- the variable of a loop -/
  | loop (k : VariableKind) : Binds s { kind := .variable k, target := k.home, declaration := s }
  | imported : Binds s { kind := .imported, target := .module, declaration := s }

/-- How a site declares names in a role. -/
inductive Declares (source : String) (role : Role) (s : Site) (b : Binder) : Prop
  /-- in the way the role hands down -/
  | handed (h : role.binder? = some b)
  /-- on its own account; what it initializes is a variable of the keyword it is written with -/
  | own (hrole : role.isExpression = true) (hkind : isBinding s.kind = true) (h : Binds s b)
      (hkeyword : ∀ init, b.init = some init → b.kind = .variable (declaredKind source s))

/-! ### What is written -/

/-- `c` is written, or handed a part of what is written, where `s` is read in a role. -/
inductive Writes (role : Role) (s c : Site) : Prop
  /-- `s` writes to it, or is written to -/
  | target (h : IsTargetOf s c)
      (hs : s.kind.assigns = true ∨ s.kind = .forIn ∨
        role.isTarget = true ∧ s.kind.carriesTarget = true)
  /-- it belongs to a property of the pattern `s` -/
  | property {d : Site} (hrole : role.isTarget = true) (hkind : s.kind = .objectPattern)
      (hd : d ∈ s.namedChildren) (hkd : d.kind = .pairPattern ∨ d.kind = .objectAssignmentPattern)
      (h : IsTargetOf d c)
  | peeled (hrole : role.isTarget = true) (h : s.wrapped? = some c)

theorem Writes.adjoins {role : Role} {s c : Site} (h : Writes role s c) : Adjoins s c := by
  cases h with
  | target h => exact .child h.mem_children
  | property _ _ hd hkd h =>
      exact .past (mem_children_of_mem_namedChildren hd)
        (by rcases hkd with hkd | hkd <;> rw [hkd] <;> rfl) h.mem_children
  | peeled _ h => exact adjoins_wrapped h

/-! ### The sorts of contribution -/

/-- What `s` contributes in a role. -/
inductive Offers (source : String) (role : Role) (s : Site) : Step → Prop
  | enter (kind : ScopeKind) (hrole : role.isExpression = true) (hs : opensRegion s.kind = true) :
      Offers source role s (.emit (.enter kind s))
  | leave (hrole : role.isExpression = true) (hs : opensRegion s.kind = true) :
      Offers source role s (.emit .leave)
  | declare (d : Declaration) (hd : Declares source role s d.binder) :
      Offers source role s (.emit (.declare d))
  /-- the name that the site itself is -/
  | refer (access : Access) (hk : isNameKind s.kind = true)
      (hrole : access = .read ∨ role.isTarget = true) :
      Offers source role s (.emit (.refer (s.text source) s access))
  /-- a name in an object pattern that is assigned to -/
  | write {x : Site} (hk : isNameKind x.kind = true) (hx : Writes role s x) :
      Offers source role s (.emit (.refer (x.text source) x .write))
  | value {c : Site} (hc : Adjoins s c) : Offers source role s (.visit .value c)
  | elementName {c : Site} (hc : Adjoins s c) : Offers source role s (.visit .elementName c)
  | elementObject {c : Site} (hc : Adjoins s c) : Offers source role s (.visit .elementObject c)
  | target (access : Access) {c : Site} (hc : Writes role s c) :
      Offers source role s (.visit (.target access) c)
  | pattern {b : Binder} (steps : List PatternStep) {c : Site} (hb : Declares source role s b)
      (hc : Adjoins s c) : Offers source role s (.visit (.pattern b steps) c)
  /-- the list of parameters is passed over, of whatever kind it is -/
  | parameter {b : Binder} (steps : List PatternStep) {ps c : Site}
      (hb : Declares source role s b) (hps : s.field? .parameters = some ps)
      (hc : c ∈ ps.children) : Offers source role s (.visit (.pattern b steps) c)

section Steps

variable {P : Step → Prop} {source : String} {s : Site}

theorem forall_mem_fieldSteps {role : Role} {f : Field}
    (h : ∀ c, s.field? f = some c → P (.visit role c)) : ∀ x ∈ fieldSteps role f s, P x := by
  unfold fieldSteps
  split
  · exact List.forall_mem_singleton.mpr (h _ ‹_›)
  · exact List.forall_mem_nil _

theorem forall_mem_computedKeySteps {f : Field}
    (h : ∀ key, s.field? f = some key → key.kind = .computedName → P (.visit .value key)) :
    ∀ x ∈ computedKeySteps f s, P x := by
  unfold computedKeySteps
  split
  · split
    · exact List.forall_mem_singleton.mpr (h _ ‹_› ‹_›)
    · exact List.forall_mem_nil _
  · exact List.forall_mem_nil _

theorem forall_mem_declareSteps {binder : Binder} {steps : List PatternStep} {ident : Site}
    (h : ∀ d : Declaration, d.binder = binder → P (.emit (.declare d))) :
    ∀ x ∈ declareSteps source binder steps ident, P x :=
  List.forall_mem_singleton.mpr (h _ rfl)

theorem forall_mem_nameSteps {kind : BindingKind}
    (h : ∀ d : Declaration, d.binder = { kind, target := .current, declaration := s } →
      P (.emit (.declare d))) : ∀ x ∈ nameSteps source kind s, P x := by
  unfold nameSteps
  split
  · exact forall_mem_declareSteps h
  · exact List.forall_mem_nil _

theorem forall_mem_region {kind : ScopeKind} {steps : List Step}
    (henter : P (.emit (.enter kind s))) (hleave : P (.emit .leave)) (h : ∀ x ∈ steps, P x) :
    ∀ x ∈ region kind s steps, P x :=
  List.forall_mem_cons.mpr
    ⟨henter, List.forall_mem_append.mpr ⟨h, List.forall_mem_singleton.mpr hleave⟩⟩

end Steps

section Offers

variable {source : String} {role : Role} {s : Site}

/-! ### Expressions and statements -/

theorem offers_childSteps : ∀ x ∈ childSteps s, Offers source role s x :=
  List.forall_mem_map.mpr fun _ hc => .value (adjoins_namedChildren hc)

theorem offers_memberSteps : ∀ x ∈ memberSteps s, Offers source role s x :=
  List.forall_mem_map.mpr fun _ hc => .value (adjoins_namedChildren (List.mem_filter.mp hc).1)

theorem offers_valueField (f : Field) : ∀ x ∈ fieldSteps .value f s, Offers source role s x :=
  forall_mem_fieldSteps fun _ hc => .value (adjoins_field hc)

theorem offers_computedKeySteps (f : Field) : ∀ x ∈ computedKeySteps f s, Offers source role s x :=
  forall_mem_computedKeySteps fun _ hkey _ => .value (adjoins_field hkey)

/-- What is read of a property of a pattern, which is passed over. -/
theorem offers_valueField_past {d : Site} (hd : d ∈ s.children)
    (hpassed : isPassedOver d.kind = true) (f : Field) :
    ∀ x ∈ fieldSteps .value f d, Offers source role s x :=
  forall_mem_fieldSteps fun _ hc => .value (.past hd hpassed (mem_children_of_field? hc))

theorem offers_computedKeySteps_past {d : Site} (hd : d ∈ s.children)
    (hpassed : isPassedOver d.kind = true) (f : Field) :
    ∀ x ∈ computedKeySteps f d, Offers source role s x :=
  forall_mem_computedKeySteps fun _ hkey _ =>
    .value (.past hd hpassed (mem_children_of_field? hkey))

/-- The left of an assignment, or the argument of an update. -/
theorem offers_assigned (hkind : s.kind.assigns = true) {f : Field} (access : Access)
    (h : ∀ c, s.field? f = some c → IsTargetOf s c) :
    ∀ x ∈ fieldSteps (.target access) f s, Offers source role s x :=
  forall_mem_fieldSteps fun c hc => .target access (.target (h c hc) (Or.inl hkind))

section Own

variable (hrole : role.isExpression = true)

include hrole

/-- A site declares its name and its parameters in the scope it stands in or opens. -/
theorem declares_own (hkind : isBinding s.kind = true) (kind : BindingKind)
    (hvariable : ∀ k, kind ≠ .variable k) :
    Declares source role s { kind, target := .current, declaration := s } :=
  .own hrole hkind (.own kind hvariable) fun _ hinit => by contradiction

theorem offers_nameSteps (hkind : isBinding s.kind = true) (kind : BindingKind)
    (hvariable : ∀ k, kind ≠ .variable k) : ∀ x ∈ nameSteps source kind s, Offers source role s x :=
  forall_mem_nameSteps fun d hd => .declare d (hd ▸ declares_own hrole hkind kind hvariable)

theorem offers_region (hs : opensRegion s.kind = true) (kind : ScopeKind) {steps : List Step}
    (h : ∀ x ∈ steps, Offers source role s x) : ∀ x ∈ region kind s steps, Offers source role s x :=
  forall_mem_region (.enter kind hrole hs) (.leave hrole hs) h

theorem offers_functionSteps (hs : opensRegion s.kind = true) :
    ∀ x ∈ functionSteps source s, Offers source role s x := by
  have hkind := isBinding_of_opensRegion hs
  have hparameter : Declares source role s
      { kind := .parameter, target := .current, declaration := s } :=
    declares_own hrole hkind .parameter (by simp)
  refine offers_region hrole hs .function ?_
  simp only [List.forall_mem_append]
  refine ⟨⟨⟨?_, ?_⟩, ?_⟩, ?_⟩
  · split
    · exact offers_nameSteps hrole hkind .functionName (by simp)
    · exact List.forall_mem_nil _
  · exact forall_mem_fieldSteps fun _ hc => .pattern [] hparameter (adjoins_field hc)
  · split
    · rename_i ps hps
      exact List.forall_mem_map.mpr fun _ hc =>
        .parameter [] hparameter hps (mem_children_of_mem_namedChildren hc)
    · exact List.forall_mem_nil _
  · split
    · rename_i body hbody
      split
      · rename_i hblock
        exact List.forall_mem_map.mpr fun _ hc => .value (.past (mem_children_of_field? hbody)
          (by rw [hblock]; rfl) (mem_children_of_mem_namedChildren hc))
      · exact List.forall_mem_singleton.mpr (.value (adjoins_field hbody))
    · exact List.forall_mem_nil _

theorem offers_declarationSteps
    (hkind : s.kind = .lexicalDeclaration ∨ s.kind = .variableDeclaration) :
    ∀ x ∈ declarationSteps source s, Offers source role s x := by
  have hbinding : isBinding s.kind = true := by
    rcases hkind with hkind | hkind <;> rw [hkind] <;> rfl
  refine List.forall_mem_flatMap.mpr fun d hd => ?_
  obtain ⟨hd, hkd⟩ := List.mem_filter.mp hd
  have hkd : d.kind = .declarator := by simpa using hkd
  have hpassed : isPassedOver d.kind = true := by rw [hkd]; rfl
  have hmem := mem_children_of_mem_namedChildren hd
  refine List.forall_mem_append.mpr ⟨?_, offers_valueField_past hmem hpassed .value⟩
  exact forall_mem_fieldSteps fun _ hc =>
    .pattern [] (.own hrole hbinding (.declarator _ hkind hd hkd) fun _ _ => rfl)
      (.past hmem hpassed (mem_children_of_field? hc))

theorem offers_forInSteps (hkind : s.kind = .forIn) :
    ∀ x ∈ forInSteps source s, Offers source role s x := by
  refine offers_region hrole (by rw [hkind]; rfl) .loop ?_
  simp only [List.forall_mem_append]
  refine ⟨⟨?_, offers_valueField .right⟩, offers_valueField .body⟩
  split
  · exact forall_mem_fieldSteps fun _ hc => .pattern []
      (.own hrole (by rw [hkind]; rfl) (.loop _) fun _ hinit => by contradiction)
      (adjoins_field hc)
  · rename_i hplain
    exact forall_mem_fieldSteps fun _ hc =>
      .target .write (.target (.loop hkind hplain hc) (Or.inr (Or.inl hkind)))

theorem offers_importSteps (hkind : s.kind = .importStatement) :
    ∀ x ∈ importSteps source s, Offers source role s x := by
  refine List.forall_mem_flatMap.mpr fun _ _ => forall_mem_declareSteps fun d hd => .declare d ?_
  rw [hd]
  exact .own hrole (by rw [hkind]; rfl) .imported fun _ hinit => by contradiction

theorem offers_expandValue : ∀ x ∈ expandValue source s, Offers source role s x := by
  unfold expandValue
  split
  all_goals rename_i hkind
  · exact List.forall_mem_nil _
  · exact List.forall_mem_nil _
  · exact List.forall_mem_singleton.mpr (.refer .read (by rw [hkind]; rfl) (Or.inl rfl))
  · exact List.forall_mem_singleton.mpr (.refer .read (by rw [hkind]; rfl) (Or.inl rfl))
  · exact List.forall_mem_append.mpr
      ⟨offers_nameSteps hrole (by rw [hkind]; rfl) _ (by simp),
        offers_functionSteps hrole (by rw [hkind]; rfl)⟩
  · exact offers_functionSteps hrole (by rw [hkind]; rfl)
  · exact offers_functionSteps hrole (by rw [hkind]; rfl)
  · exact List.forall_mem_append.mpr
      ⟨offers_computedKeySteps .name, offers_functionSteps hrole (by rw [hkind]; rfl)⟩
  · exact List.forall_mem_append.mpr
      ⟨offers_nameSteps hrole (by rw [hkind]; rfl) _ (by simp), offers_memberSteps⟩
  · split
    · exact offers_region hrole (by rw [hkind]; rfl) _ (List.forall_mem_append.mpr
        ⟨offers_nameSteps hrole (by rw [hkind]; rfl) _ (by simp), offers_memberSteps⟩)
    · exact offers_memberSteps
  · exact offers_declarationSteps hrole (Or.inl hkind)
  · exact offers_declarationSteps hrole (Or.inr hkind)
  · exact offers_importSteps hrole hkind
  · split
    · exact List.forall_mem_nil _
    · exact offers_childSteps
  · exact offers_valueField .name
  · exact offers_region hrole (by rw [hkind]; rfl) _ offers_childSteps
  · exact offers_region hrole (by rw [hkind]; rfl) _ offers_childSteps
  · exact offers_region hrole (by rw [hkind]; rfl) _ offers_childSteps
  · exact offers_forInSteps hrole hkind
  · refine offers_region hrole (by rw [hkind]; rfl) _
      (List.forall_mem_append.mpr ⟨?_, offers_valueField .body⟩)
    exact forall_mem_fieldSteps fun _ hc =>
      .pattern [] (declares_own hrole (by rw [hkind]; rfl) .catchParameter (by simp))
        (adjoins_field hc)
  · exact List.forall_mem_append.mpr
      ⟨offers_assigned (by rw [hkind]; rfl) .write fun _ hc => .assignment (Or.inl hkind) hc,
        offers_valueField .right⟩
  · exact List.forall_mem_append.mpr
      ⟨offers_assigned (by rw [hkind]; rfl) .readWrite fun _ hc => .assignment (Or.inr hkind) hc,
        offers_valueField .right⟩
  · exact offers_assigned (by rw [hkind]; rfl) .readWrite fun _ hc => .update hkind hc
  · exact List.forall_mem_map.mpr fun _ hc => .value (adjoins_wrapped (Option.mem_toList.mp hc))
  · exact List.forall_mem_map.mpr fun _ hc => .value (adjoins_wrapped (Option.mem_toList.mp hc))
  · split
    · exact List.forall_mem_singleton.mpr (.value (adjoins_castOperand ‹_›))
    · exact offers_childSteps
  · exact List.forall_mem_append.mpr
      ⟨forall_mem_fieldSteps fun _ hc => .elementName (adjoins_field hc), offers_memberSteps⟩
  · exact List.forall_mem_append.mpr
      ⟨forall_mem_fieldSteps fun _ hc => .elementName (adjoins_field hc), offers_memberSteps⟩
  · exact List.forall_mem_nil _
  · exact List.forall_mem_nil _
  · exact offers_nameSteps hrole (by rw [hkind]; rfl) _ (by simp)
  · exact offers_valueField .body
  · exact offers_childSteps

end Own

/-! ### Patterns -/

section Pattern

variable {binder : Binder} {steps : List PatternStep} (hb : Declares source role s binder)

include hb

theorem offers_declareSteps (ident : Site) :
    ∀ x ∈ declareSteps source binder steps ident, Offers source role s x :=
  forall_mem_declareSteps fun d hd => .declare d (hd ▸ hb)

theorem offers_expandProperty {d : Site} (hd : d ∈ s.children) :
    ∀ x ∈ expandProperty source binder steps d, Offers source role s x := by
  unfold expandProperty
  split
  all_goals rename_i hkind
  · exact offers_declareSteps hb d
  · have hpassed : isPassedOver d.kind = true := by rw [hkind]; rfl
    exact List.forall_mem_append.mpr ⟨offers_computedKeySteps_past hd hpassed .key,
      forall_mem_fieldSteps fun _ hc =>
        .pattern _ hb (.past hd hpassed (mem_children_of_field? hc))⟩
  · have hpassed : isPassedOver d.kind = true := by rw [hkind]; rfl
    refine List.forall_mem_append.mpr ⟨?_, offers_valueField_past hd hpassed .right⟩
    split
    · rename_i left hleft
      split
      · exact offers_declareSteps hb left
      · exact List.forall_mem_singleton.mpr
          (.pattern _ hb (.past hd hpassed (mem_children_of_field? hleft)))
    · exact List.forall_mem_nil _
  · exact List.forall_mem_singleton.mpr (.pattern _ hb (.child hd))
  · exact List.forall_mem_nil _

theorem offers_patternField (f : Field) :
    ∀ x ∈ fieldSteps (.pattern binder steps) f s, Offers source role s x :=
  forall_mem_fieldSteps fun _ hc => .pattern steps hb (adjoins_field hc)

theorem offers_expandPattern :
    ∀ x ∈ expandPattern source binder steps s, Offers source role s x := by
  unfold expandPattern
  split
  · exact offers_declareSteps hb s
  · exact offers_declareSteps hb s
  · exact List.forall_mem_flatMap.mpr fun _ hd =>
      offers_expandProperty hb (mem_children_of_mem_namedChildren hd)
  · exact List.forall_mem_map.mpr fun _ hc => .pattern _ hb (.child (mem_of_mem_elements hc))
  · exact List.forall_mem_append.mpr ⟨offers_patternField hb .left, offers_valueField .right⟩
  · exact List.forall_mem_map.mpr fun _ hc =>
      .pattern _ hb (adjoins_firstNamed (Option.mem_toList.mp hc))
  · exact List.forall_mem_append.mpr ⟨offers_patternField hb .pattern, offers_valueField .value⟩
  · exact List.forall_mem_nil _

end Pattern

/-! ### Targets -/

section Target

variable (hrole : role.isTarget = true)

include hrole

theorem offers_expandTargetProperty (hkind : s.kind = .objectPattern) {d : Site}
    (hd : d ∈ s.namedChildren) : ∀ x ∈ expandTargetProperty source d, Offers source role s x := by
  have hmem := mem_children_of_mem_namedChildren hd
  have helement : Writes role s d :=
    .target (.element (Or.inr hkind) hd) (Or.inr (Or.inr ⟨hrole, by rw [hkind]; rfl⟩))
  unfold expandTargetProperty
  split
  all_goals rename_i hkd
  · exact List.forall_mem_singleton.mpr (.write (by rw [hkd]; rfl) helement)
  · have hpassed : isPassedOver d.kind = true := by rw [hkd]; rfl
    exact List.forall_mem_append.mpr ⟨offers_computedKeySteps_past hmem hpassed .key,
      forall_mem_fieldSteps fun _ hc =>
        .target _ (.property hrole hkind hd (Or.inl hkd) (.property hkd hc))⟩
  · have hpassed : isPassedOver d.kind = true := by rw [hkd]; rfl
    refine List.forall_mem_append.mpr ⟨?_, offers_valueField_past hmem hpassed .right⟩
    split
    · rename_i left hleft
      have hwrites : Writes role s left :=
        .property hrole hkind hd (Or.inr hkd) (.default (Or.inr hkd) hleft)
      split
      · rename_i hkl
        exact List.forall_mem_singleton.mpr (.write (by rw [hkl]; rfl) hwrites)
      · exact List.forall_mem_singleton.mpr (.target _ hwrites)
    · exact List.forall_mem_nil _
  · exact List.forall_mem_singleton.mpr (.target _ helement)
  · exact List.forall_mem_nil _

theorem offers_peeled (access : Access) :
    ∀ x ∈ s.wrapped?.toList.map (Step.visit (.target access)), Offers source role s x :=
  List.forall_mem_map.mpr fun _ hc => .target access (.peeled hrole (Option.mem_toList.mp hc))

theorem offers_expandTarget (hexpression : role.isExpression = true) (access : Access) :
    ∀ x ∈ expandTarget source access s, Offers source role s x := by
  have hpart (hcarries : s.kind.carriesTarget = true) {c : Site} (h : IsTargetOf s c) :
      Writes role s c := .target h (Or.inr (Or.inr ⟨hrole, hcarries⟩))
  unfold expandTarget
  split
  all_goals rename_i hkind
  · exact List.forall_mem_singleton.mpr (.refer access (by rw [hkind]; rfl) (Or.inr hrole))
  · exact offers_peeled hrole access
  · exact offers_peeled hrole access
  · exact offers_peeled hrole access
  · exact List.forall_mem_flatMap.mpr fun _ hd => offers_expandTargetProperty hrole hkind hd
  · exact List.forall_mem_map.mpr fun _ hc =>
      .target _ (hpart (by rw [hkind]; rfl) (.element (Or.inl hkind) hc))
  · exact List.forall_mem_append.mpr
      ⟨forall_mem_fieldSteps fun _ hc =>
          .target _ (hpart (by rw [hkind]; rfl) (.default (Or.inl hkind) hc)),
        offers_valueField .right⟩
  · exact List.forall_mem_map.mpr fun _ hc =>
      .target _ (hpart (by rw [hkind]; rfl) (.rest hkind (Option.mem_toList.mp hc)))
  · exact offers_expandValue hexpression

end Target

/-! ### Names of elements -/

theorem offers_elementObject :
    ∀ x ∈ s.firstNamed?.toList.map (Step.visit .elementObject), Offers source role s x :=
  List.forall_mem_map.mpr fun _ hc => .elementObject (adjoins_firstNamed (Option.mem_toList.mp hc))

theorem offers_expandElementName : ∀ x ∈ expandElementName source s, Offers source role s x := by
  unfold expandElementName
  split
  · split
    · exact List.forall_mem_singleton.mpr (.refer .read (by rw [‹s.kind = _›]; rfl) (Or.inl rfl))
    · exact List.forall_mem_nil _
  · exact offers_elementObject
  · exact offers_elementObject
  · exact List.forall_mem_nil _

theorem offers_expandElementObject :
    ∀ x ∈ expandElementObject source s, Offers source role s x := by
  unfold expandElementObject
  split
  · exact List.forall_mem_singleton.mpr (.refer .read (by rw [‹s.kind = _›]; rfl) (Or.inl rfl))
  · exact offers_elementObject
  · exact offers_elementObject
  · exact List.forall_mem_nil _

/-! ### All roles -/

/-- Whatever a site is read as, it contributes one of these. -/
theorem offers_of_mem_expand {x : Step} (h : x ∈ expand source role s) :
    Offers source role s x := by
  cases role with
  | value => exact offers_expandValue rfl x h
  | pattern => exact offers_expandPattern (.handed rfl) x h
  | target access => exact offers_expandTarget rfl rfl access x h
  | elementName => exact offers_expandElementName x h
  | elementObject => exact offers_expandElementObject x h

/-! ### Syntax that only refers to names -/

/-- Refers to a name, or leads to a site that is no pattern. -/
def Step.Refers : Step → Prop
  | .emit (.refer _ _ _) => True
  | .emit _ => False
  | .visit r _ => r.isPattern = false

theorem not_declares {role : Role} {b : Binder} (hk : isBinding s.kind = false)
    (hr : role.isPattern = false) : ¬ Declares source role s b := by
  rintro (h | ⟨-, hkind, -, -⟩)
  · cases role <;> contradiction
  · rw [hk] at hkind
    contradiction

theorem refers_expand {role : Role} (hk : isBinding s.kind = false) (hr : role.isPattern = false) :
    ∀ x ∈ expand source role s, x.Refers := by
  intro x hx
  cases offers_of_mem_expand hx with
  | enter _ _ hs => exact absurd (isBinding_of_opensRegion hs) (by simp [hk])
  | leave _ hs => exact absurd (isBinding_of_opensRegion hs) (by simp [hk])
  | declare _ hd => exact absurd hd (not_declares hk hr)
  | pattern _ hd => exact absurd hd (not_declares hk hr)
  | parameter _ hd => exact absurd hd (not_declares hk hr)
  | refer => trivial
  | write => trivial
  | _ => rfl

/-- What binds nothing and is no pattern is not read as one, and leads to none. -/
theorem not_isPattern_of_visit {r : Role} {c : Site} (hk : isBinding s.kind = false)
    (hpattern : ∀ b steps, expandPattern source b steps s = [])
    (h : .visit r c ∈ expand source role s) : role.isPattern = false ∧ r.isPattern = false := by
  have hrole : role.isPattern = false := by
    cases role with
    | pattern b steps =>
        rw [expand, hpattern] at h
        contradiction
    | _ => rfl
  exact ⟨hrole, refers_expand hk hrole _ h⟩

end Offers

end HookLint.Scope

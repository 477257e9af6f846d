/-
The paths that are read and the paths that are spelled.

Both start at an identifier and add keys to its name.  A read climbs from its
identifier and never adds `current` (`pathAt_eq_ofKeys`); an entry of an array goes
down to its identifier, in the regions the array stands in (`Spells.reaches`).
-/
import HookLint.Dependency.Declared
import HookLint.Dependency.Read
import HookLint.Proofs.Arguments
import HookLint.Proofs.Paths

namespace HookLint.Dependency

open HookLint.Syntax HookLint.Scope HookLint.Dependency.Path

/-- What the grammars promise of one node: names and properties hold no dot, and the object of an
access is an expression. -/
structure WellSpelled (source : String) (s : Site) : Prop where
  name : isNameKind s.kind = true → Plain (s.text source)
  property : s.kind = .member → ∀ p ∈ s.field? .property, Plain (p.text source)
  object : s.kind = .member ∨ s.kind = .subscript → ∀ o ∈ s.field? .object, o.isProper = true

instance (source : String) (s : Site) : Decidable (WellSpelled source s) :=
  decidable_of_iff
    ((isNameKind s.kind = true → Plain (s.text source)) ∧
      (s.kind = .member → ∀ p ∈ s.field? .property, Plain (p.text source)) ∧
      (s.kind = .member ∨ s.kind = .subscript → ∀ o ∈ s.field? .object, o.isProper = true))
    ⟨fun ⟨h1, h2, h3⟩ => ⟨h1, h2, h3⟩, fun ⟨h1, h2, h3⟩ => ⟨h1, h2, h3⟩⟩

/-- What the grammars promise of a tree. -/
structure Grammatical (source : String) (root : Tree) : Prop where
  oneField : root.OneField
  spelled : ∀ s, Site.Under (Site.root root) s → WellSpelled source s

/-- The object of an access is an expression. -/
def ProperObjects (root : Tree) : Prop :=
  ∀ s, Site.Under (Site.root root) s → s.kind = .member ∨ s.kind = .subscript →
    ∀ o ∈ s.field? .object, o.isProper = true

variable {source : String} {root : Tree}

theorem Grammatical.properObjects (hg : Grammatical source root) : ProperObjects root :=
  fun s hs => (hg.spelled s hs).object

/-! ### Keys -/

theorem plain_of_isIdentifierName {s : String} (h : isIdentifierName s = true) : Plain s := by
  unfold isIdentifierName at h
  unfold Plain
  have hchar : ∀ c : Char, (isNameStart c || c.isDigit) = true → c ≠ '.' := by
    rintro c hc rfl
    contradiction
  split at h
  · rename_i hnil
    rw [hnil]
    exact List.not_mem_nil
  · rename_i c rest hcons
    rw [hcons]
    simp only [Bool.and_eq_true, List.all_eq_true] at h
    intro hdot
    rcases List.mem_cons.mp hdot with heq | hmem
    · exact hchar c (by simp [h.1]) heq.symm
    · exact hchar '.' (h.2 '.' hmem) rfl

theorem plain_of_subscriptKey? {s : Site} {key : String} (h : s.subscriptKey? source = some key) :
    Plain key := by
  unfold Site.subscriptKey? at h
  split at h
  · contradiction
  · exact plain_of_isIdentifierName (Option.filter_eq_some_iff.mp h).2

theorem plain_of_accessKey? {access object : Site} (hs : WellSpelled source access) {key : String}
    (h : accessKey? source access object = some key) : Plain key := by
  unfold accessKey? at h
  split at h
  · split at h
    · obtain ⟨p, hp, rfl⟩ := Option.map_eq_some_iff.mp h
      exact hs.property ‹_› p hp
    · exact plain_of_subscriptKey? h
    · contradiction
  · contradiction

/-! ### Reads -/

/-- Climbing adds keys, none of them `current`. -/
theorem climb_eq_ofKeys (hg : Grammatical source root) (name : String) (keys : List String)
    (t : Tree) (above : List Tree) (hunder : Site.Under (Site.root root) ⟨t, above⟩) :
    ∃ more, climb source (ofKeys name keys) t above = ofKeys name (keys ++ more) ∧
      ∀ k ∈ more, Plain k ∧ k ≠ "current" := by
  induction above generalizing t keys with
  | nil => exact ⟨[], by rw [climb, List.append_nil], by simp⟩
  | cons p above ih =>
      have hparent : Site.Under (Site.root root) ⟨p, above⟩ := hunder.parent rfl rfl
      have hstop : ∃ more, ofKeys name keys = ofKeys name (keys ++ more) ∧
          ∀ k ∈ more, Plain k ∧ k ≠ "current" := ⟨[], by rw [List.append_nil], by simp⟩
      rw [climb]
      split
      · exact ih keys p hparent
      · split
        · exact hstop
        · rename_i key hkey
          split
          · exact hstop
          · rename_i hcond
            have hplain : Plain key ∧ key ≠ "current" :=
              ⟨plain_of_accessKey? (hg.spelled _ hparent) hkey, fun h => hcond (Or.inl h)⟩
            rw [← ofKeys_concat]
            split
            · exact ⟨[key], rfl, by simpa using hplain⟩
            · obtain ⟨more, hmore, hall⟩ := ih (keys ++ [key]) p hparent
              refine ⟨key :: more, by rw [hmore, List.append_assoc]; rfl, ?_⟩
              intro k hk
              rcases List.mem_cons.mp hk with rfl | hk
              · exact hplain
              · exact hall k hk

/-- The path of a read is a name and keys, none of them `current`. -/
theorem pathAt_eq_ofKeys (hg : Grammatical source root) {x : Site}
    (hx : Site.Under (Site.root root) x) :
    ∃ keys, pathAt source x = ofKeys (x.text source) keys ∧ ∀ k ∈ keys, Plain k ∧ k ≠ "current" :=
  climb_eq_ofKeys hg (x.text source) [] x.tree x.above hx

/-! ### Entries -/

/-- The expression spells the path, starting at the identifier. -/
inductive Spells (source : String) : Site → Path → Site → Prop
  | name {s : Site} (hkind : s.unwrap.kind = .identifier) :
      Spells source s ⟨s.unwrap.text source⟩ s.unwrap
  | member {s object property ident : Site} {path : Path} (hkind : s.unwrap.kind = .member)
      (hobject : s.unwrap.field? .object = some object) (h : Spells source object path ident)
      (hproperty : s.unwrap.field? .property = some property) :
      Spells source s (path.push (property.text source)) ident
  | subscript {s object ident : Site} {path : Path} {key : String}
      (hkind : s.unwrap.kind = .subscript) (hobject : s.unwrap.field? .object = some object)
      (h : Spells source object path ident) (hkey : s.unwrap.subscriptKey? source = some key) :
      Spells source s (path.push key) ident

theorem spells_of_spelledPath? {s : Site} {path : Path} {ident : Site}
    (h : spelledPath? source s = some (path, ident)) : Spells source s path ident := by
  fun_induction spelledPath? source s generalizing path ident with
  | case1 s hkind =>
      injection h with h
      injection h with hpath hident
      subst hpath
      subst hident
      exact .name hkind
  | case2 s hkind object hobject ih =>
      simp only [Option.bind_eq_bind, Option.bind_eq_some_iff, Option.pure_def, Option.some.injEq,
        Prod.mk.injEq] at h
      obtain ⟨⟨path', ident'⟩, hrec, property, hproperty, rfl, rfl⟩ := h
      exact .member hkind hobject (ih hrec) hproperty
  | case3 => contradiction
  | case4 s hkind object hobject ih =>
      simp only [Option.bind_eq_bind, Option.bind_eq_some_iff, Option.pure_def, Option.some.injEq,
        Prod.mk.injEq] at h
      obtain ⟨⟨path', ident'⟩, hrec, key, hkey, rfl, rfl⟩ := h
      exact .subscript hkind hobject (ih hrec) hkey
  | case5 => contradiction
  | case6 => contradiction

/-- An entry with a path spells it, and means what its identifier means. -/
theorem Entry.spells_of_path? {g : Graph} {site : Site} {path : Path}
    (h : (Entry.ofSite g source site).path? = some path) :
    ∃ ident, Spells source site path ident ∧
      (Entry.ofSite g source site).root = g.resolvedAt? ident := by
  by_cases hprimitive : site.isPrimitive = true
  · simp [Entry.ofSite, hprimitive, Entry.path?] at h
  · cases hspelled : spelledPath? source site with
    | none => simp [Entry.ofSite, hprimitive, hspelled, Entry.path?] at h
    | some p =>
        have hentry : Entry.ofSite g source site =
            { site, text := site.text source, kind := .path p.1, root := g.resolvedAt? p.2 } := by
          simp [Entry.ofSite, hprimitive, hspelled]
        rw [hentry] at h ⊢
        injection h with h
        subst h
        exact ⟨p.2, spells_of_spelledPath? hspelled, rfl⟩

/-- An array of dependencies is an array literal, read element by element. -/
theorem Declared.ofSite_of_array {g : Graph} {deps : Site} (hkind : deps.unwrap.kind = .array)
    (hspread : deps.unwrap.namedChildren.any (·.kind == .spread) = false) :
    Declared.ofSite g source deps =
      .array deps.unwrap (deps.unwrap.namedChildren.map (Entry.ofSite g source)) := by
  simp [Declared.ofSite, hkind, hspread]

theorem Declared.of_array {g : Graph} {deps array : Site} {entries : List Entry}
    (h : Declared.ofSite g source deps = .array array entries) :
    array = deps.unwrap ∧ deps.unwrap.kind = .array ∧
      entries = deps.unwrap.namedChildren.map (Entry.ofSite g source) := by
  by_cases hkind : deps.unwrap.kind = .array
  · by_cases hspread : deps.unwrap.namedChildren.any (·.kind == .spread) = true
    · simp [Declared.ofSite, hkind, hspread] at h
    · rw [Declared.ofSite_of_array hkind (by simpa using hspread)] at h
      injection h with harray hentries
      exact ⟨harray.symm, hkind, hentries.symm⟩
  · simp [Declared.ofSite, hkind] at h

theorem under_object {s object : Site} (hs : Site.Under (Site.root root) s)
    (hobject : s.unwrap.field? .object = some object) : Site.Under (Site.root root) object :=
  .child (hs.trans (Visit.under_unwrap s)) (Site.mem_children_of_field? hobject)

/-- A spelled path is the name of its identifier and keys. -/
theorem Spells.eq_ofKeys (hg : Grammatical source root) {s : Site} {path : Path} {ident : Site}
    (h : Spells source s path ident) (hs : Site.Under (Site.root root) s) :
    ∃ keys, path = ofKeys (ident.text source) keys ∧ ∀ k ∈ keys, Plain k := by
  -- One more key after those of the object.
  have hpush : ∀ {ident : Site} {path : Path} {key : String}, Plain key →
      (∃ keys, path = ofKeys (ident.text source) keys ∧ ∀ k ∈ keys, Plain k) →
      ∃ keys, path.push key = ofKeys (ident.text source) keys ∧ ∀ k ∈ keys, Plain k := by
    rintro ident path key hkey ⟨keys, rfl, hkeys⟩
    refine ⟨keys ++ [key], (ofKeys_concat _ _ _).symm, fun k hk => ?_⟩
    rcases List.mem_append.mp hk with hk | hk
    · exact hkeys k hk
    · exact List.mem_singleton.mp hk ▸ hkey
  induction h with
  | name => exact ⟨[], rfl, by simp⟩
  | member hkind hobject _ hproperty ih =>
      have hspelled := hg.spelled _ (hs.trans (Visit.under_unwrap _))
      exact hpush (hspelled.property hkind _ hproperty) (ih (under_object hs hobject))
  | subscript _ hobject _ hkey ih =>
      exact hpush (plain_of_subscriptKey? hkey) (ih (under_object hs hobject))

theorem Spells.ident_kind {s : Site} {path : Path} {ident : Site} (h : Spells source s path ident)
    (hs : Site.Under (Site.root root) s) : ident.kind = .identifier ∧ Site.Under (Site.root root) ident := by
  induction h with
  | name hkind => exact ⟨hkind, hs.trans (Visit.under_unwrap _)⟩
  | member _ hobject _ _ ih => exact ih (under_object hs hobject)
  | subscript _ hobject _ _ ih => exact ih (under_object hs hobject)

/-! ### Reading goes down to the identifier -/

/-- A value is read through its wrapping. -/
theorem reaches_unwrap (inside : List Site) (s : Site) :
    Visit.Reaches source ⟨inside, .value, s⟩ ⟨inside, .value, s.unwrap⟩ := by
  fun_induction Site.unwrap s with
  | case1 s inner hw ih =>
      refine .head ?_ ih
      have hwrapper := Visit.isTransparent_of_wrapped? hw
      refine Visit.next_of_quiet (v := ⟨inside, .value, s⟩)
        (Visit.expand_wrapper source .value hwrapper).1 ?_
      show Step.visit .value inner ∈ expandValue source s
      have hmem : Step.visit .value inner ∈ s.wrapped?.toList.map (Step.visit .value) :=
        List.mem_map.mpr ⟨inner, by simp [hw], rfl⟩
      unfold Site.wrapped? at hw
      split at hw
      · simpa [expandValue, ‹s.kind = _›] using hmem
      · rename_i hkind
        cases hcast : s.castOperand? with
        | some operand =>
            simp only [hcast] at hw
            injection hw with hw
            simp [expandValue, hkind, hcast, hw]
        | none =>
            simp only [hcast] at hw
            simp only [expandValue, hkind, hcast, childSteps]
            exact List.mem_map.mpr ⟨inner, List.mem_of_head? hw, rfl⟩
      · simpa [expandValue, ‹s.kind = _›] using hmem
      · contradiction
  | case2 => exact .refl

/-- Kinds of node that are read child by child. -/
def isPlainKind : Kind → Bool
  | .array | .member | .subscript => true
  | _ => false

theorem reaches_namedChild {s c : Site} (inside : List Site) (hkind : isPlainKind s.kind = true)
    (hc : c ∈ s.namedChildren) :
    Visit.Reaches source ⟨inside, .value, s⟩ ⟨inside, .value, c⟩ := by
  have hexpand : expandValue source s = childSteps s := by
    revert hkind
    unfold expandValue
    cases s.kind <;> simp [isPlainKind]
  refine .single (Visit.next_of_quiet (v := ⟨inside, .value, s⟩) ?_ ?_)
  · show ∀ x ∈ expandValue source s, x.Quiet
    rw [hexpand]
    exact quiet_visits
  · show _ ∈ expandValue source s
    rw [hexpand]
    exact List.mem_map.mpr ⟨c, hc, rfl⟩

/-- Reading an expression that spells a path reads its identifier, in the same regions. -/
theorem Spells.reaches (hobjects : ProperObjects root) {s : Site} {path : Path} {ident : Site}
    (h : Spells source s path ident) (hs : Site.Under (Site.root root) s) (inside : List Site) :
    Visit.Reaches source ⟨inside, .value, s⟩ ⟨inside, .value, ident⟩ := by
  -- From an access to its object, which is no comment.
  have hobject : ∀ {s object : Site}, Site.Under (Site.root root) s →
      (s.unwrap.kind = .member ∨ s.unwrap.kind = .subscript) →
      s.unwrap.field? .object = some object →
      Visit.Reaches source ⟨inside, .value, s⟩ ⟨inside, .value, object⟩ := by
    intro s object hs hkind hobject
    have hproper := hobjects _ (hs.trans (Visit.under_unwrap s)) hkind object hobject
    have hplain : isPlainKind s.unwrap.kind = true := by
      rcases hkind with h | h <;> rw [h] <;> rfl
    exact (reaches_unwrap inside s).trans (reaches_namedChild inside hplain
      (List.mem_filter.mpr ⟨Site.mem_children_of_field? hobject, hproper⟩))
  induction h with
  | name => exact reaches_unwrap inside _
  | member hkind hobj _ _ ih =>
      exact (hobject hs (Or.inl hkind) hobj).trans (ih (under_object hs hobj))
  | subscript hkind hobj _ _ ih =>
      exact (hobject hs (Or.inr hkind) hobj).trans (ih (under_object hs hobj))

/-- An identifier that is read as a value is an occurrence of its name. -/
theorem refer_of_arrives {inside : List Site} {ident : Site} (hkind : ident.kind = .identifier)
    (h : Visit.Arrives source root ⟨inside, .value, ident⟩) :
    (inside, .refer (ident.text source) ident .read) ∈ traced [] (unitEvents source root) := by
  refine Visit.mem_traced_unit.mpr (Or.inr (Or.inr ⟨_, h, ?_⟩))
  have hexpand : expandValue source ident = referSteps source .read ident := by
    simp [expandValue, hkind]
  show _ ∈ stages Step.shift inside (expandValue source ident)
  rw [hexpand]
  exact List.mem_singleton_self _

end HookLint.Dependency
